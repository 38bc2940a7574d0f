import HostLisp.Form.Basic

/-!
# Jobs

The evaluator and the compiler meet a form in one of two roles: as code, or as a template whose unquoted
parts are code. A job is a form in its role.
-/

namespace HostLisp

/-- Something to be done for a form. -/
inductive Job where
  /-- the form is code -/
  | form (f : Form)
  /-- the form is a template -/
  | template (f : Form)

/-- The form that a job is about. -/
def Job.site : Job → Form
  | .form f => f
  | .template f => f

end HostLisp
