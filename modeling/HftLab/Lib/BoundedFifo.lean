/-
  HftLab.Lib.BoundedFifo — a queue with a fixed number of places: what each call answers, and what a run of calls answers.

  A queue whose calls may also fail to return answers as such a list along a run when its calls keep a relation to the list that is
  held and answer as the list does (`run_answers`). Where some calls do not, it does so just along the runs without them
  (`eachStep_of_run`).
-/

import HftLab.Lib.System

namespace HftLab.Lib.BoundedFifo

variable {T σ α : Type}

inductive Call (T : Type) where
  | push (item : T)
  | pop
  | empty
  deriving DecidableEq, Repr

inductive Answer (T : Type) where
  | pushed (ok : Bool)
  | popped (out : Option T)
  | isEmpty (yes : Bool)
  deriving DecidableEq, Repr

/-- A full queue refuses a push; an empty one has nothing to pop. -/
def answer (cap : Nat) (held : List T) : Call T → Answer T
  | .push _ => .pushed (held.length < cap)
  | .pop => .popped held.head?
  | .empty => .isEmpty held.isEmpty

def next (cap : Nat) (held : List T) : Call T → List T
  | .push item => if held.length < cap then held ++ [item] else held
  | .pop => held.tail
  | .empty => held

def answers (cap : Nat) : List T → List (Call T) → List (Answer T)
  | _, [] => []
  | held, c :: calls => answer cap held c :: answers cap (next cap held c) calls

/-! ## Queues that answer so -/

/-- The answers of a queue to calls that may fail to return. -/
def run (exec : σ → α → Option (Answer T × σ)) : σ → List α → Option (List (Answer T))
  | _, [] => some []
  | q, a :: l => (exec q a).bind fun x => (run exec x.2 l).map (x.1 :: ·)

variable {cap : Nat} {exec : σ → α → Option (Answer T × σ)} {call : α → Call T} {R : σ → List T → List α → Prop}
  {Q : List T → Call T → Prop} {q : σ} {held : List T} {l : List α}

/-- Every call of the run is in `Q`; `R` also knows the calls to come. -/
theorem run_answers
    (hstep : ∀ q held a l, R q held (a :: l) → Q held (call a) →
      ∃ x, exec q a = some x ∧ x.1 = answer cap held (call a) ∧ R x.2 (next cap held (call a)) l)
    (hR : R q held l) (hQ : EachStep (next cap) Q held (l.map call)) : run exec q l = some (answers cap held (l.map call)) := by
  induction l generalizing q held with
  | nil => rfl
  | cons a l ih =>
    obtain ⟨hq, hQ⟩ := hQ
    obtain ⟨x, hx, hanswer, hnext⟩ := hstep q held a l hR hq
    rw [run, hx, Option.bind_some, ih hnext hQ, hanswer]
    rfl

/-- A call outside of `Q` does not answer as the list does. -/
theorem eachStep_of_run
    (hstep : ∀ q held a l x, R q held (a :: l) → Q held (call a) → exec q a = some x → R x.2 (next cap held (call a)) l)
    (hmiss : ∀ q held a l x, R q held (a :: l) → ¬Q held (call a) → exec q a = some x → x.1 ≠ answer cap held (call a))
    (hR : R q held l) (hrun : run exec q l = some (answers cap held (l.map call))) : EachStep (next cap) Q held (l.map call) := by
  induction l generalizing q held with
  | nil => trivial
  | cons a l ih =>
    rw [run] at hrun
    obtain ⟨x, hx, hrest⟩ := Option.bind_eq_some_iff.mp hrun
    obtain ⟨as, has, heq⟩ := Option.map_eq_some_iff.mp hrest
    obtain ⟨hanswer, htail⟩ := List.cons.inj heq
    have hq : Q held (call a) := Classical.byContradiction fun hq => hmiss q held a l x hR hq hx hanswer
    rw [htail] at has
    exact ⟨hq, ih (hstep q held a l x hR hq hx) has⟩

end HftLab.Lib.BoundedFifo
