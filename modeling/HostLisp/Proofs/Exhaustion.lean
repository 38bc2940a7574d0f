import HostLisp.Proofs.History
import HostLisp.Proofs.Measuring
import HostLisp.Proofs.StaticSoundness

/-!
# A program that uses up all cells

A store has no more cells than there are numbers of 32 bits, and a short program gets there. Every call makes a
cell for its argument. A function that calls another one twice makes more than twice as many cells as the other
does, so that a few functions, each made from the one before, make more cells in one call than there are numbers.
The calls nest no deeper than there are functions.

* `Makes`: a computation that makes a number of cells, or fails for want of one. `Makes.bind`: **the numbers of two
  computations add up.**
* `tower`, `Doubles`: functions that call one another twice, as forms and as closures.
* `call_makes`, `tower_makes`: the cells of a call, and the cells it takes to make the functions.
* `compiled_exhausts`: **a program that compiles can fail for want of a cell.**
* `used_exhausts`: **an evaluator can be used up**, so that it answers otherwise than a fresh one.
-/

namespace HostLisp.Evaluator

/-! ## Counting cells -/

/-- The realm in which all cells hold what they hold. -/
def still : Realm := ⟨fun _ => False, fun _ _ => True, fun _ _ => trivial⟩

/-- What a cell holds it holds on. -/
theorem content?_of_grows {m m' : Memory} (h : still.Grows m m') {cell : CellId} {content : Option Value}
    (hc : m.store.content? cell = some content) : m'.store.content? cell = some content := by
  have hlt : cell.index < m.size := (Array.getElem?_eq_some_iff.1 hc).1
  rw [h.foreign cell id hlt, hc]

/-- **A computation makes a number of cells** and has a property, or fails because there are not that many left. A
store within its capacity stays there. -/
inductive Makes {α : Type} (x : Eval α) (k : Nat) (m : Memory) (P : α → Memory → Prop) : Prop
  | ok {a : α} {m' : Memory} (h : x.outcome m = (.ok a, m')) (hgrows : still.Grows m m')
      (hsize : m'.size = m.size + k) (hroom : m.size ≤ Store.capacity → m'.size ≤ Store.capacity) (hP : P a m')
  | exhausted {m' : Memory} (h : x.outcome m = (.error Store.exhausted, m')) (hfull : Store.capacity ≤ m'.size)
      (hmany : Store.capacity < m.size + k)

namespace Makes

variable {α β : Type} {m : Memory}

theorem pure {P : α → Memory → Prop} {a : α} (h : P a m) : Makes (Pure.pure a) 0 m P :=
  .ok rfl (.refl m) rfl id h

/-- **Two computations one after the other.** -/
theorem bind {x : Eval α} {f : α → Eval β} {k l : Nat} {P : α → Memory → Prop} {Q : β → Memory → Prop}
    (hx : Makes x k m P) (hf : ∀ a m', still.Grows m m' → P a m' → Makes (f a) l m' Q) :
    Makes (x >>= f) (k + l) m Q := by
  have ho := Realm.Runs.outcome_bind x f m
  cases hx with
  | exhausted h hfull hmany =>
    rw [h] at ho
    exact .exhausted ho hfull (by omega)
  | @ok a m' h hgrows hsize hroom hP =>
    rw [h] at ho
    cases hf a m' hgrows hP with
    | ok h' hgrows' hsize' hroom' hQ =>
      exact .ok (ho.trans h') (hgrows.trans hgrows') (by omega) (hroom' ∘ hroom) hQ
    | exhausted h' hfull hmany =>
      exact .exhausted (ho.trans h') hfull (by omega)

/-- The same number counted in another way, and a property that follows. -/
theorem weaken {x : Eval α} {k l : Nat} {P Q : α → Memory → Prop} (hx : Makes x k m P) (hk : k = l)
    (h : ∀ a m', still.Grows m m' → P a m' → Q a m') : Makes x l m Q := by
  subst hk
  cases hx with
  | ok ho hgrows hsize hroom hP => exact .ok ho hgrows hsize hroom (h _ _ hgrows hP)
  | exhausted ho hfull hmany => exact .exhausted ho hfull hmany

theorem alloc (v : Value) : Makes (Eval.alloc (some v)) 1 m fun cell m' =>
    m'.store.content? cell = some (some v) := by
  rcases Nat.lt_or_ge m.size Store.capacity with hroom | hfull
  · have hsize := Memory.size_push m (some v)
    refine .ok (Eval.outcome_alloc_ok hroom _) (.push m _) hsize (fun _ => hsize ▸ hroom) ?_
    rw [Store.content?_push]
    exact if_pos rfl
  · exact .exhausted (Eval.outcome_alloc_error hfull _) hfull (by omega)

theorem stamp : Makes Eval.stamp 0 m fun _ _ => True :=
  .ok rfl ⟨Nat.le_refl _, fun _ _ _ => rfl⟩ rfl id trivial

/-- What makes more cells than are left fails. -/
theorem exhausts {x : Eval α} {k : Nat} {P : α → Memory → Prop} (hx : Makes x k m P) (hm : m.size ≤ Store.capacity)
    (hmany : Store.capacity < m.size + k) :
    (x.outcome m).1 = .error Store.exhausted ∧ Store.capacity ≤ (x.outcome m).2.size := by
  cases hx with
  | ok _ _ hsize hroom _ => exact absurd (hroom hm) (by omega)
  | exhausted h hfull _ => rw [h]; exact ⟨rfl, hfull⟩

end Makes

/-! ## Functions that call one another twice -/

/-- `(f x)` -/
def passOn : Form := .list [.symbol "f", .symbol "x"]

/-- `(fn (x) (f x) (f x))` -/
def callsTwice : Form := .list [.symbol "fn", .list [.symbol "x"], passOn, passOn]

/-- `(fn (f) (fn (x) (f x) (f x)))` -/
def wrapper : Form := .list [.symbol "fn", .list [.symbol "f"], callsTwice]

/-- A function that calls nothing, and a function that calls the one before twice. -/
def tower : Nat → Form
  | 0 => .list [.symbol "fn", .list [.symbol "x"], .symbol "x"]
  | n + 1 => .list [wrapper, tower n]

/-- One call of a function of the tower. -/
def cascade (n : Nat) : Form := .list [tower n, .literal (.boolean true)]

/-- The closures of the tower. Those above the first find the one before in a cell of their scope. -/
inductive Doubles (m : Memory) : Nat → Closure → Prop
  | once (stamp : Nat) (σ : Scope) : Doubles m 0 ⟨stamp, .fixed ["x"], ⟨[], .symbol "x"⟩, σ⟩
  | twice {n : Nat} {c : Closure} {cell : CellId} (stamp : Nat) {σ : Scope} (hf : σ.find? "f" = some cell)
      (hcell : m.store.content? cell = some (some (.closure c))) (h : Doubles m n c) :
      Doubles m (n + 1) ⟨stamp, .fixed ["x"], ⟨[passOn], passOn⟩, σ⟩

/-- The cells of a call: one for the argument, and those of two calls of the function before. -/
def callCells : Nat → Nat
  | 0 => 1
  | n + 1 => 1 + (callCells n + callCells n)

theorem Doubles.mono {m m' : Memory} {n : Nat} {c : Closure} (h : Doubles m n c) (hg : still.Grows m m') :
    Doubles m' n c := by
  induction h with
  | once stamp σ => exact .once stamp σ
  | twice stamp hf hcell _ ih => exact .twice stamp hf (content?_of_grows hg hcell) ih

section

variable {limit levels n : Nat} {m : Memory} {σ : Scope}

/-- A name that is bound to a full cell. -/
theorem name_makes (limit levels : Nat) {name : String} {cell : CellId} {v : Value} (hf : σ.find? name = some cell)
    (hv : m.store.content? cell = some (some v)) :
    Makes (perform limit (levels + 1) (.form (.symbol name)) σ) 0 m fun r _ => r = (v, σ) := by
  have hread : (Eval.read cell).outcome m = (.ok (some v), m) := by
    rw [Eval.outcome_read, Store.read_of_content? hv]
  refine .ok ?_ (.refl m) rfl id rfl
  rw [perform, layer, evalForm, Form.shape]
  dsimp only
  rw [lookup, hf, Realm.Runs.outcome_bind, Realm.Runs.outcome_bind, hread]
  rfl

/-- A function makes no cells before it is called. -/
theorem fn_makes (limit levels : Nat) {f : Form} {params : Parameters} {body : Body} (h : f.Reads (.fn params body)) :
    Makes (perform limit (levels + 1) (.form f) σ) 0 m fun r _ =>
      ∃ stamp, r = (.closure ⟨stamp, params, body, σ⟩, σ) := by
  rw [perform, layer, evalForm_of_reads h]
  have hstamp : Makes (Eval.stamp >>= fun stamp => Pure.pure (.closure ⟨stamp, params, body, σ⟩, σ)) (0 + 0) m
      fun (r : Value × Scope) _ => ∃ stamp, r = (.closure ⟨stamp, params, body, σ⟩, σ) :=
    .bind .stamp fun stamp _ _ _ => .pure ⟨stamp, rfl⟩
  exact hstamp

/-- A cell for one argument. -/
theorem bindEach_makes (name : String) (v : Value) : Makes (bindEach [(name, v)] σ) 1 m fun σ' m' =>
    ∃ cell, σ' = σ.bind name cell ∧ m'.store.content? cell = some (some v) := by
  refine .bind (l := 0) (.alloc v) ?_
  intro cell m' _ hcell
  exact .pure ⟨cell, rfl, hcell⟩

/-- **A call with one argument** makes a cell for it, and then what the body makes. -/
theorem call_one_makes {below : Performer} {site : Form} {stamp k : Nat} {name : String} {body : Body} {v : Value}
    {P : Value → Memory → Prop}
    (hbody : ∀ cell m', still.Grows m m' → (σ.bind name cell).find? name = some cell →
      m'.store.content? cell = some (some v) →
      Makes (evalBody below body.leading body.last (σ.bind name cell)) k m' P) :
    Makes (call below site ⟨stamp, .fixed [name], body, σ⟩ [v]) (1 + k) m P := by
  have hcall : Makes (bindEach [(name, v)] σ >>= evalBody below body.leading body.last) (1 + k) m P := by
    refine .bind (bindEach_makes name v) ?_
    rintro σ' m' hgrows ⟨cell, rfl, hcell⟩
    have hfound : (σ.bind name cell).find? name = some cell := by rw [Scope.find?_bind, if_pos rfl]
    exact hbody cell m' hgrows hfound hcell
  have harity : [name].length = [v].length := rfl
  simp only [call]
  rw [if_pos harity]
  exact hcall

/-- The value of one form, and nothing else. -/
theorem evalBody_makes {below : Performer} {last : Form} {k : Nat} {P : Value → Memory → Prop}
    (h : Makes (below (.form last) σ) k m fun r m' => P r.1 m') : Makes (evalBody below [] last σ) k m P := by
  refine .bind (l := 0) h ?_
  intro r m' _ hr
  exact .pure hr

/-- The value of one argument. -/
theorem evalEach_makes {below : Performer} {arg : Form} {k : Nat} {V : Value → Memory → Prop}
    (h : Makes (below (.form arg) σ) k m fun r m' => ∃ v, r = (v, σ) ∧ V v m') :
    Makes (evalEach below [arg] σ) k m fun r m' => ∃ v, r = ([v], σ) ∧ V v m' := by
  refine .bind (l := 0) h ?_
  rintro _ m' _ ⟨v, rfl, hv⟩
  exact .pure ⟨v, rfl, hv⟩

/-- **An application to one argument** makes the cells of the head, of the argument and of the call. -/
theorem apply_makes {below : Performer} {site head arg : Form} {j k l : Nat} {C : Closure → Memory → Prop}
    {V P : Value → Memory → Prop}
    (hhead : Makes (below (.form head) σ) j m fun r m' => ∃ c, r = (.closure c, σ) ∧ C c m')
    (harg : ∀ m', still.Grows m m' → Makes (below (.form arg) σ) k m' fun r m'' => ∃ v, r = (v, σ) ∧ V v m'')
    (hcall : ∀ c v m' m'', C c m' → still.Grows m' m'' → V v m'' → Makes (call below site c [v]) l m'' P) :
    Makes (apply below site head [arg] σ) (j + (k + l)) m fun r m' => ∃ w, r = (w, σ) ∧ P w m' := by
  refine .bind hhead ?_
  rintro _ m₁ hgrows ⟨c, rfl, hc⟩
  refine .bind (evalEach_makes (harg m₁ hgrows)) ?_
  rintro _ m₂ hgrows' ⟨v, rfl, hv⟩
  refine .bind (l := 0) (hcall c v m₁ m₂ hc hgrows' hv) ?_
  intro w m₃ _ hw
  exact .pure ⟨w, rfl, hw⟩

/-- `(f x)` makes the cells of the call. -/
theorem passOn_makes {c : Closure} {v : Value} {cell arg : CellId} {k : Nat} (hf : σ.find? "f" = some cell)
    (hcell : m.store.content? cell = some (some (.closure c))) (hx : σ.find? "x" = some arg)
    (harg : m.store.content? arg = some (some v))
    (hcall : ∀ m', still.Grows m m' → Makes (call (perform limit (levels + 1)) passOn c [v]) k m' fun w _ => w = v) :
    Makes (perform limit (levels + 2) (.form passOn) σ) k m fun r _ => r = (v, σ) := by
  have happly : Makes (apply (perform limit (levels + 1)) passOn (.symbol "f") [.symbol "x"] σ) (0 + (0 + k)) m
      fun r _ => ∃ w, r = (w, σ) ∧ w = v := by
    refine apply_makes (C := fun d m' => d = c ∧ still.Grows m m') (V := fun w _ => w = v) ?_ ?_ ?_
    · refine (name_makes limit levels hf hcell).weaken rfl ?_
      rintro _ m' hgrows rfl
      exact ⟨c, rfl, rfl, hgrows⟩
    · intro m' hgrows
      refine (name_makes limit levels hx (content?_of_grows hgrows harg)).weaken rfl ?_
      rintro _ _ _ rfl
      exact ⟨v, rfl, rfl⟩
    · rintro _ _ m' m'' ⟨rfl, hgrows⟩ hgrows' rfl
      exact hcall m'' (hgrows.trans hgrows')
  refine Makes.weaken (x := perform limit (levels + 2) (.form passOn) σ) happly (by omega) ?_
  rintro _ _ _ ⟨_, rfl, rfl⟩
  rfl

/-- **A call of a function of the tower** makes a cell for its argument, and twice what the function before makes. -/
theorem call_makes {c : Closure} (h : Doubles m n c) (hn : n < levels) (site : Form) (v : Value) :
    Makes (call (perform limit levels) site c [v]) (callCells n) m fun w _ => w = v := by
  induction n generalizing levels m c site with
  | zero =>
    obtain ⟨l, rfl⟩ : ∃ l, levels = l + 1 := ⟨levels - 1, by omega⟩
    cases h with
    | once stamp σ =>
      refine call_one_makes (k := 0) fun cell m' _ hx hcell => evalBody_makes ?_
      refine (name_makes limit l hx hcell).weaken rfl ?_
      rintro _ _ _ rfl
      rfl
  | succ n ih =>
    obtain ⟨l, rfl⟩ : ∃ l, levels = l + 2 := ⟨levels - 2, by omega⟩
    cases h with
    | @twice _ c f stamp σ hf hfc hc =>
      -- Both calls find the function before, which no cell made since has changed.
      have hpass : ∀ arg m', still.Grows m m' → (σ.bind "x" arg).find? "x" = some arg →
          m'.store.content? arg = some (some v) →
          Makes (perform limit (l + 2) (.form passOn) (σ.bind "x" arg)) (callCells n) m' fun r _ =>
            r = (v, σ.bind "x" arg) := by
        intro arg m' hgrows hx harg
        have hf' : (σ.bind "x" arg).find? "f" = some f := by rw [Scope.find?_bind, if_neg (by decide), hf]
        refine passOn_makes hf' (content?_of_grows hgrows hfc) hx harg fun m'' hgrows' => ?_
        exact ih (hc.mono (hgrows.trans hgrows')) (by omega) passOn
      refine call_one_makes fun arg m' hgrows hx harg => .bind (hpass arg m' hgrows hx harg) ?_
      rintro _ m'' hgrows' rfl
      have hlast := hpass arg m'' (hgrows.trans hgrows') hx (content?_of_grows hgrows' harg)
      refine evalBody_makes (hlast.weaken rfl ?_)
      rintro _ _ _ rfl
      rfl

/-- The tower is made with one cell for each function that another one calls. -/
theorem tower_makes (hn : n < levels) : Makes (perform limit levels (.form (tower n)) σ) n m fun r m' =>
    ∃ c, r = (.closure c, σ) ∧ Doubles m' n c := by
  induction n generalizing levels m with
  | zero =>
    obtain ⟨l, rfl⟩ : ∃ l, levels = l + 1 := ⟨levels - 1, by omega⟩
    have hreads : (tower 0).Reads (.fn (.fixed ["x"]) ⟨[], .symbol "x"⟩) := ⟨_, _, rfl, rfl⟩
    refine (fn_makes limit l hreads).weaken rfl ?_
    rintro _ m' _ ⟨stamp, rfl⟩
    exact ⟨_, rfl, .once stamp σ⟩
  | succ n ih =>
    obtain ⟨l, rfl⟩ : ∃ l, levels = l + 2 := ⟨levels - 2, by omega⟩
    have happly : Makes (apply (perform limit (l + 1)) (tower (n + 1)) wrapper [tower n] σ) (0 + (n + (1 + 0))) m
        fun r m' => ∃ w, r = (w, σ) ∧ ∃ c, w = .closure c ∧ Doubles m' (n + 1) c := by
      refine apply_makes (C := fun c _ => ∃ stamp, c = ⟨stamp, .fixed ["f"], ⟨[], callsTwice⟩, σ⟩)
        (V := fun v m' => ∃ c, v = .closure c ∧ Doubles m' n c) ?_ ?_ ?_
      · have hreads : wrapper.Reads (.fn (.fixed ["f"]) ⟨[], callsTwice⟩) := ⟨_, _, rfl, rfl⟩
        refine (fn_makes limit l hreads).weaken rfl ?_
        rintro _ _ _ ⟨stamp, rfl⟩
        exact ⟨_, rfl, stamp, rfl⟩
      · intro m' _
        refine (ih (by omega)).weaken rfl ?_
        rintro _ m'' _ ⟨c, rfl, hc⟩
        exact ⟨_, rfl, c, rfl, hc⟩
      · rintro _ _ m' m'' ⟨stamp, rfl⟩ _ ⟨c, rfl, hc⟩
        refine call_one_makes fun cell m₃ hgrows hf hcell => evalBody_makes ?_
        have hreads : callsTwice.Reads (.fn (.fixed ["x"]) ⟨[passOn], passOn⟩) := ⟨_, _, rfl, rfl⟩
        refine (fn_makes limit l hreads).weaken rfl ?_
        rintro _ m₄ hgrows' ⟨stamp', rfl⟩
        exact ⟨_, rfl, .twice stamp' hf (content?_of_grows hgrows' hcell) (hc.mono (hgrows.trans hgrows'))⟩
    refine Makes.weaken (x := perform limit (l + 2) (.form (tower (n + 1))) σ) happly (by omega) ?_
    rintro _ _ _ ⟨_, rfl, c, rfl, hc⟩
    exact ⟨c, rfl, hc⟩

/-- **The cascade makes the cells of the tower and those of the call.** -/
theorem cascade_makes (hn : n + 2 ≤ limit) : Makes (perform limit limit (.form (cascade n)) σ) (n + callCells n) m
    fun r _ => r = (.literal (.boolean true), σ) := by
  obtain ⟨l, rfl⟩ : ∃ l, limit = l + 2 := ⟨limit - 2, by omega⟩
  have happly : Makes (apply (perform (l + 2) (l + 1)) (cascade n) (tower n) [.literal (.boolean true)] σ)
      (n + (0 + callCells n)) m fun r _ => ∃ w, r = (w, σ) ∧ w = .literal (.boolean true) := by
    refine apply_makes (V := fun v _ => v = .literal (.boolean true)) (tower_makes (by omega)) ?_ ?_
    · intro m' _
      exact .pure ⟨_, rfl, rfl⟩
    · rintro c _ m' m'' hc hgrows rfl
      exact call_makes (hc.mono hgrows) (by omega) (cascade n) _
  have hshape : (cascade n).shape = .application (tower n) [.literal (.boolean true)] := by
    cases n <;> rfl
  have hform : perform (l + 2) (l + 2) (.form (cascade n)) σ =
      apply (perform (l + 2) (l + 1)) (cascade n) (tower n) [.literal (.boolean true)] σ := by
    rw [perform, layer, evalForm, hshape]
  rw [hform]
  refine happly.weaken (by omega) ?_
  rintro _ _ _ ⟨_, rfl, rfl⟩
  rfl

end

/-! ## Programs that fail for want of a cell -/

/-- The levels of an evaluator stay. -/
theorem maxDepth_evaluate (ev : Evaluator) (forms : List Form) (σ : Scope) :
    (ev.evaluate forms σ).2.maxDepth = ev.maxDepth := rfl

/-- **A cascade that is high enough uses up all cells.** -/
theorem evaluate_cascade {limit n : Nat} (hn : n + 2 ≤ limit)
    (hdeep : (cascade n).checkNesting Form.nestingLimit = .ok ())
    (hmany : Store.capacity < n + callCells n) :
    ((fresh limit).evaluate [cascade n] .empty).1 = .error Store.exhausted ∧
      Store.capacity ≤ ((fresh limit).evaluate [cascade n] .empty).2.memory.size := by
  have hcheck : Makes (Eval.ofExcept ((cascade n).checkNesting Form.nestingLimit)) 0 Memory.fresh fun _ _ => True := by
    rw [hdeep]
    exact .pure trivial
  have hrun : Makes (runAll limit none [cascade n] .empty) (0 + (n + callCells n)) Memory.fresh fun _ _ => True := by
    refine .bind hcheck fun _ m' _ _ => .bind (l := 0) (cascade_makes hn) ?_
    intro r m'' _ _
    exact .pure trivial
  refine hrun.exhausts (Nat.zero_le _) ?_
  change Store.capacity < 0 + _
  omega

/-- The cascade over 32 functions, in an evaluator with the usual levels. -/
theorem evaluate_cascade_32 : ((fresh 128).evaluate [cascade 32] .empty).1 = .error Store.exhausted ∧
    Store.capacity ≤ ((fresh 128).evaluate [cascade 32] .empty).2.memory.size := by
  have hdeep : (cascade 32).checkNesting Form.nestingLimit = .ok () := by
    rw [Form.checkNesting_eq, if_neg (by decide +kernel)]
  exact evaluate_cascade (by decide) hdeep (by decide +kernel)

/-- **A program that compiles can fail for want of a cell**, though it uses no host objects and declares no name in a
branch. -/
theorem compiled_exhausts : ∃ text, Compiler.compile .default .empty [cascade 32] = .ok text ∧
    (∀ f ∈ [cascade 32], f.hostFree = true) ∧ (Form.declarationsEach [cascade 32]).branched = [] ∧
    ∃ e, ((fresh 128).evaluate [cascade 32] .empty).1 = .error e ∧ e.cause = .internal .cellsExhausted ∧
      ¬ e.cause.Dynamic 128 := by
  have hok : (Compiler.compile .default .empty [cascade 32]).isOk = true := by decide +kernel
  obtain ⟨text, hc⟩ := exists_eq_ok_of_isOk hok
  refine ⟨text, hc, by decide +kernel, by decide +kernel, _, evaluate_cascade_32.1, rfl, ?_⟩
  intro h
  cases h

/-- `(var x #t)` -/
def oneCell : Form := .list [.symbol "var", .symbol "x", .literal (.boolean true)]

/-- Where there is no cell left, a declaration fails. -/
theorem evaluate_oneCell {ev : Evaluator} (hdepth : 0 < ev.maxDepth) (hfull : Store.capacity ≤ ev.memory.size) :
    (ev.evaluate [oneCell] .empty).1 = .error Store.exhausted := by
  obtain ⟨levels, hlevels⟩ : ∃ levels, ev.maxDepth = levels + 1 := ⟨ev.maxDepth - 1, by omega⟩
  have hreads : oneCell.Reads (.var "x" (.literal (.boolean true))) := ⟨_, _, rfl, rfl⟩
  have hvar : (perform ev.maxDepth ev.maxDepth (.form oneCell) .empty).outcome ev.memory =
      (.error Store.exhausted, ev.memory) := by
    rw [hlevels, perform, layer, evalForm_of_reads hreads, evalSpecial, Realm.Runs.outcome_bind,
      Eval.outcome_alloc_error hfull]
  have hrun : (runAll ev.maxDepth none [oneCell] .empty).outcome ev.memory = (.error Store.exhausted, ev.memory) := by
    have hcheck : oneCell.checkNesting Form.nestingLimit = .ok () := by
      rw [Form.checkNesting_eq, if_neg (by decide)]
    rw [runAll, hcheck, Realm.Runs.outcome_bind]
    change Eval.outcome (_ >>= _) ev.memory = _
    rw [Realm.Runs.outcome_bind, hvar]
  exact congrArg Prod.fst hrun

/-- **An evaluator can be used up.** Behind the cascade there is no cell left for a program that a fresh evaluator
runs. -/
theorem used_exhausts : Session 128 ((fresh 128).evaluate [cascade 32] .empty).2 [.empty] [] ∧
    (∃ r, ((fresh 128).evaluate [oneCell] .empty).1 = .ok r) ∧
    (((fresh 128).evaluate [cascade 32] .empty).2.evaluate [oneCell] .empty).1 = .error Store.exhausted := by
  obtain ⟨hfails, hfull⟩ := evaluate_cascade_32
  have hok : ((fresh 128).evaluate [oneCell] .empty).1.isOk = true := by decide +kernel
  have hsession := Session.failed .start List.mem_cons_self hfails
  have hdepth := maxDepth_evaluate (fresh 128) [cascade 32] .empty
  -- From here on nothing must compute the evaluator.
  generalize ((fresh 128).evaluate [cascade 32] .empty).2 = ev at hsession hfull hdepth ⊢
  have hlevels : 0 < ev.maxDepth := by rw [hdepth]; decide
  exact ⟨hsession, exists_eq_ok_of_isOk hok, evaluate_oneCell hlevels hfull⟩

end HostLisp.Evaluator
