/-
  HftLab.Fix.Gapless — the numbers that built messages carry.

  A builder takes its number before it knows whether the body fits its array and the message the buffer, and does not give it back:
  a call that returns 0 leaves a hole which the counterparty asks to have resent (`short_buffer_leaves_gap`). With a NUL for
  delimiter a message ends before its number. `gapless_iff`: the numbers of a run are consecutive, and a failed call keeps its
  number, exactly when no call of the run is of either kind. The number of a call is then where the run starts plus how many calls
  come before it, in 32 bits.
-/

import HftLab.Fix.Builders
import HftLab.Fix.RoundTrip

namespace HftLab.Fix

open Lib List

namespace FIXSession

variable {D : Type} (print2f : D → List UInt8) {s : FIXSession} {c : Call D}

/-- The message has the number `n` where its frame and the session's header put it. -/
def Carries (s : FIXSession) (c : Call D) (message : List UInt8) (n : UInt32) : Prop :=
  ∃ len : Nat, printFields c.delim ([(8, ascii "FIX.4.2"), (9, decimal len)] ++ s.header (c.builder.layout print2f).msgType n) <+: message

def after (s : FIXSession) (calls : List (Call D)) : FIXSession := calls.foldl (fun s c => (s.build print2f c).1) s

/-- What each call of a run leaves in its buffer. -/
def outputs (s : FIXSession) : List (Call D) → List (Call D × List UInt8)
  | [] => []
  | c :: calls => (c, (s.build print2f c).2) :: outputs (s.build print2f c).1 calls

/-- The messages that were built. -/
def built (s : FIXSession) (calls : List (Call D)) : List (Call D × List UInt8) := (s.outputs print2f calls).filter (·.2 ≠ [])

structure Gapless (s : FIXSession) (calls : List (Call D)) : Prop where
  consecutive : ∀ i c message, (s.built print2f calls)[i]? = some (c, message) →
    s.Carries print2f c message (s.nextOutSeq + UInt32.ofNat i)
  kept : ∀ before c later, calls = before ++ c :: later → ((s.after print2f before).build print2f c).2 = [] →
    ((s.after print2f before).build print2f c).1.nextOutSeq = (s.after print2f before).nextOutSeq

/-- The body with the number `seq` fits the builder's array, the framed message fits the buffer, and the delimiter is none that ends
a text. -/
structure Fits (s : FIXSession) (c : Call D) (seq : UInt32) : Prop where
  body : (s.bodyText print2f c seq).length < (c.builder.layout print2f).bodySize
  message : ((cString (s.bodyText print2f c seq)).length + (decimal (cString (s.bodyText print2f c seq)).length).length + 29 : Int) ≤ c.cap
  delim : c.delim ≠ 0

/-! ## One call -/

@[simp] theorem count_nextOutSeq (s : FIXSession) (b : Builder D) : (s.count b).nextOutSeq = s.nextOutSeq := by cases b <;> rfl

@[simp] theorem count_senderComp (s : FIXSession) (b : Builder D) : (s.count b).senderComp = s.senderComp := by cases b <;> rfl

@[simp] theorem count_targetComp (s : FIXSession) (b : Builder D) : (s.count b).targetComp = s.targetComp := by cases b <;> rfl

/-- Whatever comes of the call, the number is taken. -/
theorem build_nextOutSeq (s : FIXSession) (c : Call D) : (s.build print2f c).1.nextOutSeq = s.nextOutSeq + 1 := by
  unfold build nextOutboundSeq
  dsimp only
  split
  · rfl
  · exact count_nextOutSeq ..

theorem build_header (s : FIXSession) (c : Call D) (msgType : List UInt8) (seq : UInt32) :
    (s.build print2f c).1.header msgType seq = s.header msgType seq := by
  unfold build nextOutboundSeq
  dsimp only
  split
  · rfl
  · unfold header
    rw [count_senderComp, count_targetComp]

/-- The number is printed as it was before the call. -/
theorem build_message (s : FIXSession) (c : Call D) :
    (s.build print2f c).2 = if (c.builder.layout print2f).bodySize ≤ (s.bodyText print2f c s.nextOutSeq).length then []
      else buildMessage c.cap (s.bodyText print2f c s.nextOutSeq) (ascii "FIX.4.2") c.delim := by
  have hsame : ({ s with nextOutSeq := s.nextOutSeq + 1 } : FIXSession).bodyText print2f c s.nextOutSeq = s.bodyText print2f c s.nextOutSeq :=
    rfl
  unfold build nextOutboundSeq
  dsimp only
  rw [hsame]
  split
  · rfl
  · rfl

theorem buildMessage_eq_nil_iff (cap : Int) (body begin_ : List UInt8) (delim : UInt8) :
    buildMessage cap body begin_ delim = [] ↔
      cap < (cString body).length + (decimal (cString body).length).length + (cString begin_).length + 22 := by
  have hhead : (ascii "8=" ++ cString begin_ ++ [delim] ++ ascii "9=" ++ decimal (cString body).length ++ [delim]).length =
      (decimal (cString body).length).length + (cString begin_).length + 6 := by
    simp only [length_append, length_singleton]
    have h8 : (ascii "8=").length = 2 := rfl
    have h9 : (ascii "9=").length = 2 := rfl
    omega
  unfold buildMessage
  dsimp only
  split
  · rename_i hcap
    rw [hhead] at hcap
    constructor
    · intro _
      omega
    · intro _
      rfl
  · rename_i hcap
    rw [hhead] at hcap
    constructor
    · intro h
      exact absurd h (by simp)
    · intro h
      omega

/-- The call fails for want of room, in the array or in the buffer. -/
theorem build_eq_nil_iff (s : FIXSession) (c : Call D) :
    (s.build print2f c).2 = [] ↔ (c.builder.layout print2f).bodySize ≤ (s.bodyText print2f c s.nextOutSeq).length ∨
      c.cap < (cString (s.bodyText print2f c s.nextOutSeq)).length +
        (decimal (cString (s.bodyText print2f c s.nextOutSeq)).length).length + 29 := by
  have hbegin : (cString (ascii "FIX.4.2")).length = 7 := by decide
  rw [build_message]
  split
  · rename_i hsize
    exact ⟨fun _ => .inl hsize, fun _ => rfl⟩
  · rename_i hsize
    rw [buildMessage_eq_nil_iff, hbegin]
    constructor
    · intro h
      right
      omega
    · intro h
      rcases h with h | h
      · exact absurd h hsize
      · omega

theorem layout_msgType_no_nul (b : Builder D) : 0 ∉ (b.layout print2f).msgType := by
  cases b with
  | buildMassCancel clOrdId requestType symbol =>
    have hq : (Builder.layout print2f (.buildMassCancel clOrdId requestType symbol)).msgType = ascii "q" := by
      unfold Builder.layout
      dsimp only
      split
      · cases symbol with
        | none => rfl
        | some symbol => rfl
      · rfl
    rw [hq]
    decide
  | _ =>
    show 0 ∉ ascii _
    decide

theorem header_no_nul (s : FIXSession) (b : Builder D) (seq : UInt32) : ∀ f ∈ s.header (b.layout print2f).msgType seq, 0 ∉ f.2 := by
  intro f hf
  simp only [header, mem_cons, not_mem_nil, or_false] at hf
  rcases hf with rfl | rfl | rfl | rfl
  · exact layout_msgType_no_nul print2f b
  · exact s.senderComp.no_nul
  · exact s.targetComp.no_nul
  · exact (decimal_clean _).2

theorem cString_append {l : List UInt8} (h : 0 ∉ l) (r : List UInt8) : cString (l ++ r) = l ++ cString r := by
  refine takeWhile_append_of_pos fun b hb => ?_
  simp only [decide_eq_true_eq]
  exact fun hz => h (hz ▸ hb)

/-- A message that was built. -/
theorem build_eq (h : (s.build print2f c).2 ≠ []) :
    ∃ rest, (s.build print2f c).2 =
      printFields c.delim [(8, ascii "FIX.4.2"), (9, decimal (cString (s.bodyText print2f c s.nextOutSeq)).length)] ++
        cString (s.bodyText print2f c s.nextOutSeq) ++ rest ∧ rest.count 0 ≤ 1 := by
  have hbegin : cString (ascii "FIX.4.2") = ascii "FIX.4.2" := by decide
  revert h
  rw [build_message]
  split
  · exact fun h => absurd rfl h
  · unfold buildMessage
    dsimp only
    rw [hbegin, frameHead_eq]
    split
    · exact fun h => absurd rfl h
    · intro _
      refine ⟨_, by rw [append_assoc _ _ [c.delim], append_assoc _ (ascii "10=")], ?_⟩
      rw [count_append, count_append, count_eq_zero.mpr (by decide), count_eq_zero.mpr (decimal3_clean _).2]
      exact Nat.le_trans (Nat.le_of_eq (by simp)) (count_le_length (a := 0) (l := [c.delim]))

theorem carries_of_build (hdelim : c.delim ≠ 0) (h : (s.build print2f c).2 ≠ []) :
    s.Carries print2f c (s.build print2f c).2 s.nextOutSeq := by
  obtain ⟨rest, hout, -⟩ := build_eq print2f h
  have hheader := printFields_no_nul hdelim (header_no_nul print2f s c.builder s.nextOutSeq)
  have hbody : cString (s.bodyText print2f c s.nextOutSeq) =
      printFields c.delim (s.header (c.builder.layout print2f).msgType s.nextOutSeq) ++
        cString (printFields c.delim (c.builder.layout print2f).tail) := by
    unfold bodyText
    rw [printFields_append, cString_append hheader]
  refine ⟨(cString (s.bodyText print2f c s.nextOutSeq)).length, cString (printFields c.delim (c.builder.layout print2f).tail) ++ rest, ?_⟩
  rw [hout, printFields_append, hbody]
  simp only [append_assoc]

/-- The NULs of a printed text are its delimiters. -/
theorem count_nul_printFields (fields : List (Nat × List UInt8)) (h : ∀ f ∈ fields, 0 ∉ f.2) :
    (printFields 0 fields).count 0 = fields.length := by
  induction fields with
  | nil => rfl
  | cons f fields ih =>
    have hf := h f (mem_cons_self ..)
    have hcons : printFields 0 (f :: fields) = decimal f.1 ++ equals :: (f.2 ++ [0]) ++ printFields 0 fields := rfl
    rw [hcons, count_append, ih fun g hg => h g (mem_cons_of_mem _ hg), count_append, count_cons, count_append,
      count_eq_zero.mpr (decimal_clean f.1).2, count_eq_zero.mpr hf, length_cons]
    have hequals : (equals == 0) = false := by decide
    rw [hequals]
    simp
    omega

/-- With a NUL for delimiter the message has three of them, and the frame and the header want six. -/
theorem not_carries_of_nul {t : FIXSession} (hdelim : c.delim = 0) (h : (s.build print2f c).2 ≠ []) (n : UInt32) :
    ¬t.Carries print2f c (s.build print2f c).2 n := by
  intro hcarries
  obtain ⟨len, hstart⟩ := hcarries
  obtain ⟨rest, hout, hrest⟩ := build_eq print2f h
  have hclean : ∀ k : Nat, ∀ f ∈ [(8, ascii "FIX.4.2"), (9, decimal k)], 0 ∉ f.2 := by
    intro k f hf
    simp only [mem_cons, not_mem_nil, or_false] at hf
    rcases hf with rfl | rfl
    · decide
    · exact (decimal_clean k).2
  have hwanted := hstart.sublist.count_le 0
  rw [hdelim, printFields_append, count_append, count_nul_printFields _ (hclean len),
    count_nul_printFields _ (header_no_nul print2f t c.builder n)] at hwanted
  have hthere : (s.build print2f c).2.count 0 ≤ 3 := by
    rw [hout, hdelim, count_append, count_append, count_nul_printFields _ (hclean _),
      count_eq_zero.mpr (zero_not_mem_cString _)]
    show 2 + 0 + _ ≤ 3
    omega
  have hfour : (t.header (c.builder.layout print2f).msgType n).length = 4 := rfl
  rw [hfour] at hwanted
  have htwo : ([(8, ascii "FIX.4.2"), (9, decimal len)] : List (Nat × List UInt8)).length = 2 := rfl
  omega

/-! ## A run -/

theorem after_cons (s : FIXSession) (c : Call D) (calls : List (Call D)) :
    s.after print2f (c :: calls) = (s.build print2f c).1.after print2f calls := rfl

theorem after_header (s : FIXSession) (calls : List (Call D)) (msgType : List UInt8) (seq : UInt32) :
    (s.after print2f calls).header msgType seq = s.header msgType seq := by
  induction calls generalizing s with
  | nil => rfl
  | cons c calls ih => rw [after_cons, ih, build_header]

theorem after_nextOutSeq (s : FIXSession) (calls : List (Call D)) :
    (s.after print2f calls).nextOutSeq = s.nextOutSeq + UInt32.ofNat calls.length := by
  induction calls generalizing s with
  | nil => exact (UInt32.add_zero _).symm
  | cons c calls ih =>
    rw [after_cons, ih, build_nextOutSeq, length_cons, UInt32.ofNat_add, UInt32.add_assoc, UInt32.add_comm 1]
    rfl

theorem after_bodyText (s : FIXSession) (calls : List (Call D)) (c : Call D) (seq : UInt32) :
    (s.after print2f calls).bodyText print2f c seq = s.bodyText print2f c seq := by
  unfold bodyText
  rw [after_header]

/-- The call at place `i` of a run, and the state that it meets. -/
theorem outputs_getElem? (s : FIXSession) (calls : List (Call D)) (i : Nat) (c : Call D) (message : List UInt8) :
    (s.outputs print2f calls)[i]? = some (c, message) ↔ ∃ before later, calls = before ++ c :: later ∧ before.length = i ∧
      ((s.after print2f before).build print2f c).2 = message := by
  induction calls generalizing s i with
  | nil => simp [outputs]
  | cons c' calls ih =>
    cases i with
    | zero =>
      simp only [outputs, List.getElem?_cons_zero, Option.some.injEq, Prod.mk.injEq]
      constructor
      · intro h
        obtain ⟨rfl, rfl⟩ := h
        exact ⟨[], calls, rfl, rfl, rfl⟩
      · intro h
        obtain ⟨before, later, heq, hlen, hmessage⟩ := h
        obtain rfl := length_eq_zero_iff.mp hlen
        obtain ⟨rfl, rfl⟩ := List.cons.inj heq
        exact ⟨rfl, hmessage⟩
    | succ i =>
      simp only [outputs, List.getElem?_cons_succ, ih]
      constructor
      · intro h
        obtain ⟨before, later, rfl, rfl, hmessage⟩ := h
        exact ⟨c' :: before, later, rfl, rfl, hmessage⟩
      · intro h
        obtain ⟨before, later, heq, hlen, hmessage⟩ := h
        obtain ⟨b, before, rfl⟩ := exists_cons_of_length_eq_add_one hlen
        obtain ⟨rfl, rfl⟩ := List.cons.inj heq
        exact ⟨before, later, rfl, Nat.succ.inj hlen, hmessage⟩

/-- Where no call fails, every output is a message. -/
theorem built_eq_outputs {calls : List (Call D)}
    (h : ∀ before c later, calls = before ++ c :: later → ((s.after print2f before).build print2f c).2 ≠ []) :
    s.built print2f calls = s.outputs print2f calls := by
  refine filter_eq_self.mpr fun x hx => ?_
  obtain ⟨i, hi⟩ := mem_iff_getElem?.mp hx
  obtain ⟨before, later, heq, -, hmessage⟩ := (outputs_getElem? print2f s calls i x.1 x.2).mp hi
  rw [decide_eq_true_eq, ← hmessage]
  exact h before x.1 later heq

/-- The call that comes after `before` does not fail, exactly when there is room for it. -/
theorem build_ne_nil_iff (s : FIXSession) (before : List (Call D)) (c : Call D) :
    ((s.after print2f before).build print2f c).2 ≠ [] ↔
      (s.bodyText print2f c (s.nextOutSeq + UInt32.ofNat before.length)).length < (c.builder.layout print2f).bodySize ∧
      ((cString (s.bodyText print2f c (s.nextOutSeq + UInt32.ofNat before.length))).length +
        (decimal (cString (s.bodyText print2f c (s.nextOutSeq + UInt32.ofNat before.length))).length).length + 29 : Int) ≤ c.cap := by
  rw [Ne, build_eq_nil_iff, after_nextOutSeq, after_bodyText, not_or, Nat.not_le, Int.not_lt]

theorem Carries.after_iff (s : FIXSession) (before : List (Call D)) (c : Call D) (message : List UInt8) (n : UInt32) :
    (s.after print2f before).Carries print2f c message n ↔ s.Carries print2f c message n := by
  unfold Carries
  rw [after_header]

/-- Over every run of the builders, from every session. -/
theorem gapless_iff (s : FIXSession) (calls : List (Call D)) :
    s.Gapless print2f calls ↔
      ∀ before c later, calls = before ++ c :: later → s.Fits print2f c (s.nextOutSeq + UInt32.ofNat before.length) := by
  constructor
  · intro h
    -- A call that failed would have had to keep its number.
    have hbuilt : ∀ before c later, calls = before ++ c :: later → ((s.after print2f before).build print2f c).2 ≠ [] := by
      intro before c later heq hnil
      have hkept := h.kept before c later heq hnil
      rw [build_nextOutSeq] at hkept
      exact absurd hkept (by simp)
    intro before c later heq
    obtain ⟨hbody, hmessage⟩ := (build_ne_nil_iff print2f s before c).mp (hbuilt before c later heq)
    refine ⟨hbody, hmessage, fun hdelim => ?_⟩
    have hplace := (outputs_getElem? print2f s calls before.length c _).mpr ⟨before, later, heq, rfl, rfl⟩
    rw [← built_eq_outputs print2f hbuilt] at hplace
    exact not_carries_of_nul print2f hdelim (hbuilt before c later heq) _ (h.consecutive before.length c _ hplace)
  · intro h
    have hbuilt : ∀ before c later, calls = before ++ c :: later → ((s.after print2f before).build print2f c).2 ≠ [] :=
      fun before c later heq => (build_ne_nil_iff print2f s before c).mpr ⟨(h before c later heq).body, (h before c later heq).message⟩
    constructor
    · intro i c message hi
      rw [built_eq_outputs print2f hbuilt] at hi
      obtain ⟨before, later, heq, rfl, rfl⟩ := (outputs_getElem? print2f s calls i c message).mp hi
      rw [← Carries.after_iff print2f s before, ← after_nextOutSeq print2f s before]
      exact carries_of_build print2f (h before c later heq).delim (hbuilt before c later heq)
    · intro before c later heq hnil
      exact absurd hnil (hbuilt before c later heq)

/-- A Logon into ten bytes fails and takes the number 1; the Logon after it, which is the first message, carries 2. -/
theorem short_buffer_leaves_gap :
    (({} : FIXSession).build (fun _ : Unit => []) ⟨.buildLogon 30, 10, soh⟩).2 = [] ∧
    (({} : FIXSession).build (fun _ : Unit => []) ⟨.buildLogon 30, 10, soh⟩).1.Carries (fun _ : Unit => []) ⟨.buildLogon 30, 256, soh⟩
      ((({} : FIXSession).build (fun _ : Unit => []) ⟨.buildLogon 30, 10, soh⟩).1.build
        (fun _ : Unit => []) ⟨.buildLogon 30, 256, soh⟩).2 2 ∧
    ¬Gapless (fun _ : Unit => []) {} [⟨.buildLogon 30, 10, soh⟩, ⟨.buildLogon 30, 256, soh⟩] := by
  have hnil : (({} : FIXSession).build (fun _ : Unit => []) ⟨.buildLogon 30, 10, soh⟩).2 = [] := by decide +kernel
  refine ⟨hnil, carries_of_build _ (by decide) (by decide +kernel), fun h => ?_⟩
  have hkept := h.kept [] _ _ rfl hnil
  exact absurd hkept (by decide +kernel)

end FIXSession

end HftLab.Fix
