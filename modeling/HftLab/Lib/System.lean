/-
  HftLab.Lib.System — the states a system reaches by steps, and the rule of invariants.

  For a system whose calls always return, `EachState` and `EachStep` say what holds all along one run; a property is kept by the run
  exactly when each of its steps meets the condition of that step (`EachStep.eachState_iff`).
-/

namespace HftLab.Lib

variable {σ α : Type} {start I : σ → Prop} {step : σ → σ → Prop} {s s' : σ}

inductive Reachable (start : σ → Prop) (step : σ → σ → Prop) : σ → Prop
  | start {s : σ} : start s → Reachable start step s
  | step {s s' : σ} : Reachable start step s → step s s' → Reachable start step s'

/-- What holds at the start and is kept by every step holds everywhere. -/
theorem Reachable.invariant (h : Reachable start step s) (h0 : ∀ s, start s → I s) (hstep : ∀ s s', I s → step s s' → I s') :
    I s := by
  induction h with
  | start hs => exact h0 _ hs
  | step _ hs ih => exact hstep _ _ ih hs

/-- The states that the events `l` lead to, as long as `next` accepts them. -/
def runEvents (next : σ → α → Option σ) : List α → σ → Option σ
  | [], s => some s
  | a :: l, s => (next s a).bind (runEvents next l)

/-- A run by events that are steps. -/
theorem Reachable.run {next : σ → α → Option σ} (hnext : ∀ s a s', next s a = some s' → step s s') (l : List α)
    (h : Reachable start step s) (hl : runEvents next l s = some s') : Reachable start step s' := by
  induction l generalizing s with
  | nil =>
    cases hl
    exact h
  | cons a l ih =>
    obtain ⟨t, ht, hl⟩ := Option.bind_eq_some_iff.mp hl
    exact ih (h.step (hnext s a t ht)) hl

/-! ## Along one run -/

/-- `P` of every state of the run. -/
def EachState (exec : σ → α → σ) (P : σ → Prop) : σ → List α → Prop
  | s, [] => P s
  | s, a :: l => P s ∧ EachState exec P (exec s a) l

/-- `Q` of every event of the run and the state before it. -/
def EachStep (exec : σ → α → σ) (Q : σ → α → Prop) : σ → List α → Prop
  | _, [] => True
  | s, a :: l => Q s a ∧ EachStep exec Q (exec s a) l

variable {exec : σ → α → σ} {P I : σ → Prop} {D Q : σ → α → Prop} {l : List α}

theorem EachState.head (h : EachState exec P s l) : P s := by
  cases l with
  | nil => exact h
  | cons a l => exact h.1

/-- In a run whose steps are all in `D`, with `I` to help. -/
theorem EachStep.eachState_iff (hD : EachStep exec D s l) (hI : I s) (hP : P s)
    (hinv : ∀ s a, D s a → I s → P s → P (exec s a) → I (exec s a))
    (hiff : ∀ s a, D s a → I s → P s → (P (exec s a) ↔ Q s a)) : EachState exec P s l ↔ EachStep exec Q s l := by
  induction l generalizing s with
  | nil => exact ⟨fun _ => trivial, fun _ => hP⟩
  | cons a l ih =>
    obtain ⟨hd, hD⟩ := hD
    constructor
    · intro h
      have hnext := h.2.head
      exact ⟨(hiff s a hd hI hP).mp hnext, (ih hD (hinv s a hd hI hP hnext) hnext).mp h.2⟩
    · intro h
      have hnext := (hiff s a hd hI hP).mpr h.1
      exact ⟨hP, (ih hD (hinv s a hd hI hP hnext) hnext).mpr h.2⟩

theorem EachStep.of_forall {Q : α → Prop} (h : ∀ a ∈ l, Q a) : EachStep exec (fun _ a => Q a) s l := by
  induction l generalizing s with
  | nil => trivial
  | cons a l ih => exact ⟨h a List.mem_cons_self, ih fun a' ha' => h a' (List.mem_cons_of_mem _ ha')⟩

theorem EachStep.true : EachStep exec (fun _ _ => True) s l := EachStep.of_forall fun _ _ => trivial

/-- Two properties of a step that agree as long as `I` holds. -/
theorem EachStep.iff (hI : I s) (hinv : ∀ s a, I s → Q s a → I (exec s a)) (hiff : ∀ s a, I s → (D s a ↔ Q s a)) :
    EachStep exec D s l ↔ EachStep exec Q s l := by
  induction l generalizing s with
  | nil => rfl
  | cons a l ih =>
    constructor
    · intro h
      have hq := (hiff s a hI).mp h.1
      exact ⟨hq, (ih (hinv s a hI hq)).mp h.2⟩
    · intro h
      exact ⟨(hiff s a hI).mpr h.1, (ih (hinv s a hI h.1)).mpr h.2⟩

/-- What every step keeps holds all along. -/
theorem EachStep.eachState (hD : EachStep exec D s l) (hI : I s) (hinv : ∀ s a, D s a → I s → I (exec s a)) : EachState exec I s l := by
  induction l generalizing s with
  | nil => exact hI
  | cons a l ih => exact ⟨hI, ih hD.2 (hinv s a hD.1 hI)⟩

theorem EachState.mono {P' : σ → Prop} (h : EachState exec P s l) (himp : ∀ s, P s → P' s) : EachState exec P' s l := by
  induction l generalizing s with
  | nil => exact himp s h
  | cons a l ih => exact ⟨himp s h.1, ih h.2⟩

theorem EachState.and {P' : σ → Prop} (h : EachState exec P s l) (h' : EachState exec P' s l) :
    EachState exec (fun s => P s ∧ P' s) s l := by
  induction l generalizing s with
  | nil => exact ⟨h, h'⟩
  | cons a l ih => exact ⟨⟨h.1, h'.1⟩, ih h.2 h'.2⟩

/-- What cannot come back once it is lost holds all along when it holds at the end. -/
theorem EachState.iff_last (hI : I s) (hinv : ∀ s a, I s → I (exec s a)) (hback : ∀ s a, I s → P (exec s a) → P s) :
    EachState exec P s l ↔ P (l.foldl exec s) := by
  induction l generalizing s with
  | nil => rfl
  | cons a l ih =>
    rw [List.foldl_cons, ← ih (hinv s a hI)]
    exact ⟨fun h => h.2, fun h => ⟨hback s a hI h.head, h⟩⟩

end HftLab.Lib
