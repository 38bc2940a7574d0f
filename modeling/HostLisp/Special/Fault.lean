import HostLisp.Keyword

/-!
# What can be wrong with a special form

Each way in which a special form breaks the rules of its keyword, and the words for it.
-/

namespace HostLisp

/-- A breach of the shape that a special form has to have. -/
inductive SyntaxFault where
  /-- no arguments at all -/
  | empty (k : Keyword)
  /-- more arguments than the form takes -/
  | excess (k : Keyword)
  /-- a name without a value -/
  | noValue (k : Keyword)
  | badIdentifier
  | noBody
  | badParameter
  | badAssignee
  | noClauses
  | noElse
  | noKey
  | entryNotPair
  | entryKeyNotSymbol
  | moduleNameEmpty
  | moduleNameNotString
  | noTransformer
  | macroNameNotSymbol
  | badTransformer
  | noRules
  | badReservedList
  | badReservedSymbol
  | badRule
  | emptyRule
  | ruleWithoutTemplate
  | ruleExcess
  | patternNotList
  | patternWithoutName
  /-- a property access without an object -/
  | noTarget
deriving DecidableEq

namespace SyntaxFault

/-- The construct that a fault is about. -/
def construct : SyntaxFault → String
  | .empty k | .excess k | .noValue k => k.name
  | .badIdentifier => Keyword.var.name
  | .noBody | .badParameter => Keyword.fn.name
  | .badAssignee => Keyword.assign.name
  | .noClauses | .noElse => Keyword.conditional.name
  | .noKey => Keyword.member.name
  | .entryNotPair | .entryKeyNotSymbol => Keyword.object.name
  | .moduleNameEmpty | .moduleNameNotString => Keyword.importModules.name
  | .noTransformer | .macroNameNotSymbol | .badTransformer => Keyword.defineSyntax.name
  | .noRules | .badReservedList | .badReservedSymbol | .badRule | .emptyRule | .ruleWithoutTemplate
  | .ruleExcess | .patternNotList | .patternWithoutName => Keyword.syntaxRules.name
  | .noTarget => "property access"

/-- What is wrong with the construct. -/
def complaint : SyntaxFault → String
  | .empty .var | .empty .importModules => "bad syntax - empty expression"
  | .empty _ => "empty expression"
  | .excess .var => "expects 2 arguments"
  | .excess _ => "too many arguments"
  | .noValue _ => "no value specified"
  | .badIdentifier => "invalid identifier"
  | .noBody => "no body specified"
  | .badParameter => "invalid argument identifier"
  | .badAssignee => "invalid assignee"
  | .noClauses => "no then and else clauses"
  | .noElse => "no else clause"
  | .noKey => "no property value specified"
  | .entryNotPair => "entry is not a pair"
  | .entryKeyNotSymbol => "entry key is not a symbol"
  | .moduleNameEmpty => "invalid import name, empty string"
  | .moduleNameNotString => "invalid import name, should be a string"
  | .noTransformer => "missing transformer definition"
  | .macroNameNotSymbol => "macro identifier must be a symbol"
  | .badTransformer => "transformer should be a `syntax-rules` form"
  | .noRules => "missing pattern and template definitions"
  | .badReservedList => "invalid reserved symbol list"
  | .badReservedSymbol => "invalid reserved symbol"
  | .badRule => "invalid rule"
  | .emptyRule => "empty rule"
  | .ruleWithoutTemplate => "rule missing template definition"
  | .ruleExcess => "rule has too many arguments"
  | .patternNotList => "pattern should be a list expression"
  | .patternWithoutName => "pattern should start with an identifier"
  | .noTarget => "no target specified"

/-- The words for a fault. -/
def message (f : SyntaxFault) : String :=
  f.construct ++ ": " ++ f.complaint

end SyntaxFault

end HostLisp
