/-
  HftLab.Ouch.Terminal — what reports do to an order that is filled, cancelled or rejected.

  `History` is a tracker with a number for each order that was registered and what that order added to the counters. A step
  is `Good` when the reports of the lifecycle leave a terminal order as it is, nothing but a broken trade reopens one and no
  order was counted twice. Only the executed report asks whether the order is terminal, so a step is good exactly when the
  report it brings is one that the order it names can take (`History.terminal_frozen_iff`), and a run is when all of its steps are.
-/

import HftLab.Ouch.Tracker

namespace HftLab.Ouch

open Lib Function
open HftLab.Risk (Doubles wholeDoubles)

/-- What an order added to the counters, and how often it was reopened. -/
structure Part where
  fills : Nat := 0
  cancels : Nat := 0
  rejects : Nat := 0
  reopened : Nat := 0
  deriving DecidableEq, Repr

/-- The part of the order whose report moved the counters. -/
def Part.grow (p : Part) (before after : Counts) (reopens : Bool) : Part where
  fills := p.fills + (after.fills - before.fills)
  cancels := p.cancels + (after.cancels - before.cancels)
  rejects := p.rejects + (after.rejects - before.rejects)
  reopened := p.reopened + if reopens then 1 else 0

def Part.Counted (p : Part) : Prop := p.fills ≤ 1 + p.reopened ∧ p.cancels ≤ 1 ∧ p.rejects ≤ 1

/-- A call of the tracker; a response is what the parser makes of some bytes. -/
inductive Event where
  | new (token : List UInt8) (shares : { x : Int // IsInt32 x })
  | cancelSent (token : List UInt8)
  | response (data : List UInt8)

structure History (D : Type) where
  tracker : OUCHOrderTracker D
  /-- The order that a token stands for. -/
  owner : List UInt8 → Nat := fun _ => 0
  next : Nat := 0
  part : Nat → Part := fun _ => {}

/-- The reports that a terminal order is to ignore. -/
def Lifecycle (type : ResponseType) : Prop :=
  type = .accepted ∨ type = .executed ∨ type = .cancelled ∨ type = .aiqCxl ∨ type = .rejected

/-- The broken trade of a filled order. -/
def Reopens (c : Core) (type : ResponseType) : Prop := type = .broken ∧ c.state = .filled

instance (c : Core) (type : ResponseType) : Decidable (Reopens c type) := inferInstanceAs (Decidable (_ ∧ _))

/-- The order can take the report. -/
def Core.Admits (c : Core) (shares : Int) : ResponseType → Prop
  | .accepted | .cancelled | .rejected | .replaced => ¬c.state.Terminal
  | .aiqCxl => c.state.Terminal → shares = 0 ∧ 0 < c.remaining
  | .broken => c.state ≠ .cancelled ∧ c.state ≠ .rejected
  | .error | .unknown | .sysEvent => c.state ≠ .rejected
  | .executed | .cxlPend | .cxlReject | .restated => True

namespace History

variable {D : Type} (F : Doubles D) (h : History D)

def init : History D := { tracker := OUCHOrderTracker.init F }

def apply : Event → History D
  | .new token shares =>
    { h with tracker := h.tracker.onNew F token shares, owner := Function.update h.owner token h.next, next := h.next + 1 }
  | .cancelSent token => { h with tracker := h.tracker.onCancelSent token }
  | .response data =>
    let r := parseResponse data
    let t := (h.tracker.onResponse F r).2
    if r.type = .replaced then
      match h.tracker.orders.lookup r.prevToken with
      | none => { h with tracker := t }
      | some _ => { h with tracker := t, owner := Function.update h.owner r.token (h.owner r.prevToken) }
    else
      match h.tracker.orders.lookup r.token with
      | none => { h with tracker := t }
      | some o =>
        { h with
          tracker := t
          part := Function.update h.part (h.owner r.token)
            ((h.part (h.owner r.token)).grow h.tracker.toCounts t.toCounts (Reopens o.toCore r.type)) }

/-- The response names no order, or one that can take it; a replacement takes no token away from a terminal order. -/
def Admits : Event → Prop
  | .response data =>
    let r := parseResponse data
    if r.type = .replaced then
      ∀ o, h.tracker.orders.lookup r.prevToken = some o →
        o.toCore.Admits r.shares r.type ∧ ∀ o', h.tracker.orders.lookup r.token = some o' → ¬o'.state.Terminal
    else ∀ o, h.tracker.orders.lookup r.token = some o → o.toCore.Admits r.shares r.type
  | _ => True

structure Good (e : Event) : Prop where
  frozen : ∀ data, e = .response data → Lifecycle (parseResponse data).type →
    ∀ k o, h.tracker.orders.lookup k = some o → o.state.Terminal →
      ∃ o', (h.apply F e).tracker.orders.lookup k = some o' ∧
        o'.state = o.state ∧ o'.remaining = o.remaining ∧ o'.filled = o.filled
  reopened : ∀ k o, (∀ shares, e ≠ .new k shares) → h.tracker.orders.lookup k = some o → o.state.Terminal →
    ∃ o', (h.apply F e).tracker.orders.lookup k = some o' ∧
      (o'.state.Terminal ∨
        ∃ data, e = .response data ∧ (parseResponse data).type = .broken ∧ (parseResponse data).token = k ∧ o.state = .filled)
  counted : ∀ n, ((h.apply F e).part n).Counted

/-- `P` at each step of a run. -/
def Throughout (P : History D → Event → Prop) : History D → List Event → Prop
  | _, [] => True
  | h, e :: events => P h e ∧ Throughout P (h.apply F e) events

end History

/-! ## One order -/

/-- What an order in state `s` can have added: each counter once, and a fill for each time that it was reopened. -/
structure Part.Fits (p : Part) (s : OrderState) : Prop where
  fills : p.fills ≤ p.reopened + if s.Terminal then 1 else 0
  cancels : p.cancels ≤ if s = .cancelled ∨ s = .rejected then 1 else 0
  cancelled : s = .cancelled → 1 ≤ p.cancels
  rejects : p.rejects = if s = .rejected then 1 else 0

variable {p : Part} {s : OrderState}

theorem Part.Fits.counted (h : p.Fits s) : p.Counted := by
  obtain ⟨hf, hc, -, hr⟩ := h
  refine ⟨?_, ?_, ?_⟩
  · split at hf <;> omega
  · split at hc <;> omega
  · split at hr <;> omega

theorem Part.Fits.open_order (h : p.Fits s) (hs : ¬s.Terminal) : p.fills ≤ p.reopened ∧ p.cancels = 0 ∧ p.rejects = 0 := by
  obtain ⟨hf, hc, -, hr⟩ := h
  rw [if_neg hs] at hf
  rw [if_neg fun h => hs (.inr h)] at hc
  rw [if_neg fun h => hs (.inr (.inr h))] at hr
  omega

theorem Part.Fits.not_rejected (h : p.Fits s) (hs : s ≠ .rejected) : p.fills ≤ p.reopened + 1 ∧ p.cancels ≤ 1 ∧ p.rejects = 0 := by
  obtain ⟨hf, hc, -, hr⟩ := h
  rw [if_neg hs] at hr
  refine ⟨?_, ?_, hr⟩
  · split at hf <;> omega
  · split at hc <;> omega

theorem Part.fits_open (hs : ¬s.Terminal) (hf : p.fills ≤ p.reopened) (hc : p.cancels = 0) (hr : p.rejects = 0) : p.Fits s where
  fills := by rwa [if_neg hs]
  cancels := by rw [if_neg fun h => hs (.inr h), hc]
  cancelled h := absurd (.inr (.inl h)) hs
  rejects := by rw [if_neg fun h => hs (.inr (.inr h)), hr]

theorem Part.fits_filled (hf : p.fills ≤ p.reopened + 1) (hc : p.cancels = 0) (hr : p.rejects = 0) : p.Fits .filled where
  fills := hf
  cancels := by simp [hc]
  cancelled h := by cases h
  rejects := hr

theorem Part.fits_cancelled (hf : p.fills ≤ p.reopened + 1) (hc : p.cancels = 1) (hr : p.rejects = 0) : p.Fits .cancelled where
  fills := hf
  cancels := by simp [hc]
  cancelled _ := by omega
  rejects := hr

theorem Part.fits_rejected (hf : p.fills ≤ p.reopened + 1) (hc : p.cancels ≤ 1) (hr : p.rejects = 1) : p.Fits .rejected where
  fills := hf
  cancels := by simpa using hc
  cancelled h := by cases h
  rejects := hr

theorem Part.grow_add (p : Part) (before δ : Counts) (reopens : Bool) :
    p.grow before (before.add δ) reopens =
      { fills := p.fills + δ.fills, cancels := p.cancels + δ.cancels, rejects := p.rejects + δ.rejects
        reopened := p.reopened + if reopens then 1 else 0 } := by
  simp [Part.grow, Counts.add]

namespace Core

variable {c : Core} {shares : Int} {type : ResponseType}

theorem react_frozen (hrem : IsInt32 c.remaining) (ha : c.Admits shares type) (ht : c.state.Terminal) (hl : Lifecycle type) :
    (c.react shares type).1 = c := by
  rcases hl with rfl | rfl | rfl | rfl | rfl
  · exact absurd ht ha
  · dsimp only [react]
    rw [if_pos ht]
  · exact absurd ht ha
  · obtain ⟨rfl, hpos⟩ := ha ht
    dsimp only [react]
    rw [if_pos hpos, Int.sub_zero, i32_eq hrem, if_neg (by omega)]
  · exact absurd ht ha

theorem react_terminal (ha : c.Admits shares type) (ht : c.state.Terminal) :
    (c.react shares type).1.state.Terminal ∨ Reopens c type := by
  cases type with
  | accepted => exact absurd ht ha
  | replaced => exact absurd ht ha
  | executed =>
    dsimp only [react]
    rw [if_pos ht]
    exact .inl ht
  | broken => exact .inr ⟨rfl, ht.resolve_right fun h => h.elim ha.1 ha.2⟩
  | aiqCxl =>
    left
    dsimp only [react]
    generalize (if shares < c.remaining then shares else c.remaining) = dec
    split
    · exact .inr (.inl rfl)
    · exact ht
  | cancelled => exact .inl (.inr (.inl rfl))
  | rejected => exact .inl (.inr (.inr rfl))
  | error => exact .inl (.inr (.inr rfl))
  | unknown => exact .inl (.inr (.inr rfl))
  | sysEvent => exact .inl (.inr (.inr rfl))
  | cxlPend => exact .inl ht
  | cxlReject => exact .inl ht
  | restated => exact .inl ht

/-- The state of an order that works. -/
theorem not_terminal_of_filled (filled : Int) : ¬(if 0 < filled then OrderState.partlyFilled else .live).Terminal := by
  split <;> decide

theorem eq_zero_of_i32_sub {x d : Int} (hd : IsInt32 d) (h : i32 (x - d) = x) : d = 0 := by
  unfold i32 at h
  unfold IsInt32 int32Min int32Max at hd
  rw [Int.bmod_def] at h
  split at h <;> omega

/-- A report that is neither a fill nor a cancel nor a reject. -/
theorem grow_nothing (p : Part) (before : Counts) : p.grow before (before.add {}) false = p := by
  rw [Part.grow_add]
  rfl

theorem react_fits (before : Counts) (hint : IsInt32 c.remaining) (ha : c.Admits shares type) (hp : p.Fits c.state) :
    (p.grow before (before.add (c.react shares type).2) (Reopens c type)).Fits (c.react shares type).1.state := by
  cases type with
  | accepted =>
    obtain ⟨hf, hc, hr⟩ := hp.open_order ha
    rw [Part.grow_add]
    exact Part.fits_open (s := .live) (by decide) hf hc hr
  | executed =>
    dsimp only [react]
    by_cases ht : c.state.Terminal
    · rw [if_pos ht]
      exact (grow_nothing p before).symm ▸ hp
    · rw [if_neg ht, Part.grow_add]
      obtain ⟨hf, hc, hr⟩ := hp.open_order ht
      dsimp only
      generalize (if shares < c.remaining then shares else c.remaining) = exec
      by_cases hrem : i32 (c.remaining - exec) ≤ 0
      · rw [if_pos hrem, if_pos hrem]
        exact Part.fits_filled (Nat.succ_le_succ hf) hc hr
      · rw [if_neg hrem, if_neg hrem]
        refine Part.fits_open ?_ hf hc hr
        split
        · decide
        · exact ht
  | cancelled =>
    obtain ⟨hf, hc, hr⟩ := hp.open_order ha
    rw [Part.grow_add]
    exact Part.fits_cancelled (Nat.le_succ_of_le hf) (congrArg (· + 1) hc) hr
  | broken =>
    rw [Part.grow_add]
    dsimp only [react]
    by_cases hs : c.state = .filled
    · obtain ⟨hf, -, hr⟩ := hp.not_rejected ha.2
      have hc : p.cancels = 0 := by
        have := hp.cancels
        rwa [hs, if_neg (by decide), Nat.le_zero] at this
      have hre : decide (Reopens c .broken) = true := decide_eq_true ⟨rfl, hs⟩
      rw [hre]
      exact Part.fits_open (not_terminal_of_filled _) hf hc hr
    · obtain ⟨hf, hc, hr⟩ := hp.open_order fun ht => ht.elim hs fun h => h.elim ha.1 ha.2
      have hre : decide (Reopens c .broken) = false := decide_eq_false fun h => hs h.2
      rw [hre]
      exact Part.fits_open (not_terminal_of_filled _) hf hc hr
  | aiqCxl =>
    rw [Part.grow_add]
    dsimp only [react]
    generalize hdec : (if shares < c.remaining then shares else c.remaining) = dec
    by_cases hrem : i32 (c.remaining - dec) = 0
    · rw [if_pos hrem, if_pos hrem]
      have ht : ¬c.state.Terminal := fun ht => by
        obtain ⟨rfl, hpos⟩ := ha ht
        rw [if_pos hpos] at hdec
        rw [← hdec, Int.sub_zero, i32_eq hint] at hrem
        omega
      obtain ⟨hf, hc, hr⟩ := hp.open_order ht
      exact Part.fits_cancelled (Nat.le_succ_of_le hf) (congrArg (· + 1) hc) hr
    · rw [if_neg hrem, if_neg hrem]
      exact hp
  | rejected =>
    obtain ⟨hf, hc, hr⟩ := hp.open_order ha
    rw [Part.grow_add]
    exact Part.fits_rejected (Nat.le_succ_of_le hf) (hc.le.trans (Nat.zero_le 1)) (congrArg (· + 1) hr)
  | error | unknown | sysEvent =>
    obtain ⟨hf, hc, hr⟩ := hp.not_rejected ha
    rw [Part.grow_add]
    exact Part.fits_rejected hf hc (congrArg (· + 1) hr)
  | cxlPend | cxlReject | restated | replaced => exact (grow_nothing p before).symm ▸ hp

theorem react_original (c : Core) (shares : Int) (type : ResponseType) : (c.react shares type).1.original = c.original := by
  cases type with
  | executed =>
    dsimp only [react]
    split <;> rfl
  | _ => rfl

/-- The order and its part after a report are as a good step leaves them. -/
structure Clean (c : Core) (p : Part) (before : Counts) (shares : Int) (type : ResponseType) : Prop where
  frozen : Lifecycle type → c.state.Terminal → (c.react shares type).1 = c
  reopened : c.state.Terminal → (c.react shares type).1.state.Terminal ∨ Reopens c type
  counted : (p.grow before (before.add (c.react shares type).2) (Reopens c type)).Counted

/-- A report that the order cannot take does what no good step does. -/
theorem admits_of_clean (before : Counts) (hint : IsInt32 c.remaining) (hshares : IsInt32 shares) (hp : p.Fits c.state)
    (hr : type ≠ .replaced) (h : Clean c p before shares type) : c.Admits shares type := by
  obtain ⟨hfrozen, hreopened, hcounted⟩ := h
  rw [Part.grow_add] at hcounted
  cases type with
  | accepted =>
    intro ht
    have hs : OrderState.live = c.state := congrArg Core.state (hfrozen (.inl rfl) ht)
    rw [← hs] at ht
    exact absurd ht (by decide)
  | cancelled =>
    intro ht
    have hs : OrderState.cancelled = c.state := congrArg Core.state (hfrozen (.inr (.inr (.inl rfl))) ht)
    have h1 := hp.cancelled hs.symm
    have h2 : p.cancels + 1 ≤ 1 := hcounted.2.1
    omega
  | rejected =>
    intro ht
    have hs : OrderState.rejected = c.state := congrArg Core.state (hfrozen (.inr (.inr (.inr (.inr rfl)))) ht)
    have h1 := hp.rejects
    rw [if_pos hs.symm] at h1
    have h2 : p.rejects + 1 ≤ 1 := hcounted.2.2
    omega
  | aiqCxl =>
    intro ht
    have hsame := hfrozen (.inr (.inr (.inr (.inl rfl)))) ht
    dsimp only [react] at hsame hcounted
    generalize hdec : (if shares < c.remaining then shares else c.remaining) = dec at hsame hcounted
    have hrem : i32 (c.remaining - dec) = c.remaining := congrArg Core.remaining hsame
    have hzero : dec = 0 := by
      refine eq_zero_of_i32_sub ?_ hrem
      rw [← hdec]
      split
      · exact hshares
      · exact hint
    have hne : c.remaining ≠ 0 := fun h0 => by
      rw [hrem, if_pos h0] at hsame hcounted
      have hs : OrderState.cancelled = c.state := congrArg Core.state hsame
      have h1 := hp.cancelled hs.symm
      have h2 : p.cancels + 1 ≤ 1 := hcounted.2.1
      omega
    split at hdec
    · exact ⟨by omega, by omega⟩
    · omega
  | broken =>
    have hopen : ¬(c.react shares .broken).1.state.Terminal := not_terminal_of_filled _
    have hterm : c.state.Terminal → c.state = .filled := fun ht => ((hreopened ht).resolve_left hopen).2
    constructor
    · intro hs
      have := hterm (.inr (.inl hs))
      rw [hs] at this
      cases this
    · intro hs
      have := hterm (.inr (.inr hs))
      rw [hs] at this
      cases this
  | error | unknown | sysEvent =>
    intro hs
    have h1 := hp.rejects
    rw [if_pos hs] at h1
    have h2 : p.rejects + 1 ≤ 1 := hcounted.2.2
    omega
  | replaced => exact absurd rfl hr
  | executed | cxlPend | cxlReject | restated => trivial

end Core

/-! ## Runs -/

theorem parseResponse_shares (data : List UInt8) : IsInt32 (parseResponse data).shares := by
  have h0 : IsInt32 0 := by decide
  unfold parseResponse
  dsimp only
  split
  · exact h0
  · split
    all_goals try split
    all_goals dsimp only [tooShort]
    all_goals first | with_reducible exact isInt32_i32 _ | with_reducible exact h0

theorem Core.react_ranged {c : Core} {shares : Int} (hrem : IsInt32 c.remaining) (hshares : IsInt32 shares) (type : ResponseType) :
    IsInt32 (c.react shares type).1.remaining := by
  cases type with
  | executed =>
    dsimp only [react]
    split
    · exact hrem
    · exact isInt32_i32 _
  | cancelled => exact (by decide : IsInt32 0)
  | broken | aiqCxl => exact isInt32_i32 _
  | restated => exact hshares
  | _ => exact hrem

namespace History

variable {D : Type} {F : Doubles D} {h : History D} {token data : List UInt8} {o o' : Record D} {h' : History D} {e : Event}

structure Inv (h : History D) : Prop where
  ranged : ∀ k o, h.tracker.orders.lookup k = some o → IsInt32 o.remaining
  owned : ∀ k o, h.tracker.orders.lookup k = some o → h.owner k < h.next
  apart : ∀ k k' o o', h.tracker.orders.lookup k = some o → h.tracker.orders.lookup k' = some o' → h.owner k = h.owner k' → k = k'
  fits : ∀ k o, h.tracker.orders.lookup k = some o → (h.part (h.owner k)).Fits o.state
  fresh : ∀ n, h.next ≤ n → h.part n = {}
  counted : ∀ n, (h.part n).Counted

/-- A response names no order, replaces one or is a report on one. -/
theorem apply_response_cases (h : History D) (data : List UInt8) :
    (h.tracker.orders.lookup (if (parseResponse data).type = .replaced then (parseResponse data).prevToken
        else (parseResponse data).token) = none ∧
      (h.apply F (.response data)).tracker.orders = h.tracker.orders ∧ (h.apply F (.response data)).owner = h.owner ∧
      (h.apply F (.response data)).next = h.next ∧ (h.apply F (.response data)).part = h.part) ∨
    ((parseResponse data).type = .replaced ∧ ∃ o, h.tracker.orders.lookup (parseResponse data).prevToken = some o ∧
      ∃ o' : Record D, IsInt32 o'.remaining ∧ ¬o'.state.Terminal ∧
      (h.apply F (.response data)).tracker.orders =
        (h.tracker.orders.erase (parseResponse data).prevToken).insert (parseResponse data).token o' ∧
      (h.apply F (.response data)).owner =
        update h.owner (parseResponse data).token (h.owner (parseResponse data).prevToken) ∧
      (h.apply F (.response data)).next = h.next ∧ (h.apply F (.response data)).part = h.part) ∨
    ((parseResponse data).type ≠ .replaced ∧ ∃ o, h.tracker.orders.lookup (parseResponse data).token = some o ∧
      ∃ o' : Record D, o'.toCore = (o.toCore.react (parseResponse data).shares (parseResponse data).type).1 ∧
      (∀ k, (h.apply F (.response data)).tracker.orders.lookup k =
        if k = (parseResponse data).token then some o' else h.tracker.orders.lookup k) ∧
      (h.apply F (.response data)).owner = h.owner ∧ (h.apply F (.response data)).next = h.next ∧
      (h.apply F (.response data)).part = update h.part (h.owner (parseResponse data).token)
        ((h.part (h.owner (parseResponse data).token)).grow h.tracker.toCounts
          (h.tracker.toCounts.add (o.toCore.react (parseResponse data).shares (parseResponse data).type).2)
          (Reopens o.toCore (parseResponse data).type))) := by
  have hshares := parseResponse_shares data
  unfold apply
  dsimp only
  generalize parseResponse data = r at hshares
  rcases OUCHOrderTracker.onResponse_cases (F := F) h.tracker r with ⟨hnone, horders, -⟩ | ⟨hr, o, ho, o', hcore, horders, -⟩ |
    ⟨hr, o, ho, o', hholds, hcore, hcounts⟩
  · left
    refine ⟨hnone, ?_⟩
    by_cases hr : r.type = .replaced
    · rw [if_pos hr] at hnone ⊢
      rw [hnone]
      exact ⟨horders, rfl, rfl, rfl⟩
    · rw [if_neg hr] at hnone ⊢
      rw [hnone]
      exact ⟨horders, rfl, rfl, rfl⟩
  · right
    left
    refine ⟨hr, o, ho, o', ?_, ?_, ?_⟩
    · rw [congrArg Core.remaining hcore]
      exact hshares
    · rw [congrArg Core.state hcore]
      exact Core.not_terminal_of_filled _
    · rw [if_pos hr, ho]
      exact ⟨horders, rfl, rfl, rfl⟩
  · right
    right
    refine ⟨hr, o, ho, o', hcore, ?_⟩
    rw [if_neg hr, ho, ← hcounts]
    exact ⟨hholds.lookup, rfl, rfl, rfl⟩

theorem Inv.init : (init F).Inv where
  ranged _ _ ho := by cases ho
  owned _ _ ho := by cases ho
  apart _ _ _ _ ho := by cases ho
  fits _ _ ho := by cases ho
  fresh _ _ := rfl
  counted _ := ⟨Nat.zero_le _, Nat.zero_le _, Nat.zero_le _⟩

/-- The records of a table after one of them was written. -/
theorem Inv.new (hi : h.Inv) (token : List UInt8) (shares : { x : Int // IsInt32 x }) : (h.apply F (.new token shares)).Inv := by
  have hlookup : ∀ k o, (h.apply F (.new token shares)).tracker.orders.lookup k = some o →
      k = token ∧ o.state = .new ∧ o.remaining = shares ∨ k ≠ token ∧ h.tracker.orders.lookup k = some o := fun k o hk => by
    rcases lookup_insert_cases hk with ⟨he, rfl⟩ | hk
    · exact .inl ⟨he, rfl, rfl⟩
    · exact .inr hk
  have hself : update h.owner token h.next token = h.next := update_self ..
  have hother : ∀ k, k ≠ token → update h.owner token h.next k = h.owner k := fun k hk => update_of_ne hk _ _
  constructor
  case ranged =>
    intro k o hk
    rcases hlookup k o hk with ⟨-, -, hrem⟩ | ⟨-, hk⟩
    · exact hrem ▸ shares.2
    · exact hi.ranged k o hk
  case owned =>
    intro k o hk
    show update h.owner token h.next k < h.next + 1
    rcases hlookup k o hk with ⟨rfl, -⟩ | ⟨hne, hk⟩
    · rw [hself]
      exact Nat.lt_succ_self _
    · rw [hother k hne]
      exact Nat.lt_succ_of_lt (hi.owned k o hk)
  case apart =>
    intro k k' o o' hk hk' howner
    replace howner : update h.owner token h.next k = update h.owner token h.next k' := howner
    rcases hlookup k o hk with ⟨hkt, -⟩ | ⟨hne, hk⟩ <;> rcases hlookup k' o' hk' with ⟨hkt', -⟩ | ⟨hne', hk'⟩
    · rw [hkt, hkt']
    · rw [hkt, hself, hother k' hne'] at howner
      exact absurd (hi.owned k' o' hk') (by omega)
    · rw [hkt', hself, hother k hne] at howner
      exact absurd (hi.owned k o hk) (by omega)
    · rw [hother k hne, hother k' hne'] at howner
      exact hi.apart k k' o o' hk hk' howner
  case fits =>
    intro k o hk
    show (h.part (update h.owner token h.next k)).Fits o.state
    rcases hlookup k o hk with ⟨rfl, hs, -⟩ | ⟨hne, hk⟩
    · rw [hself, hi.fresh _ (Nat.le_refl _), hs]
      exact Part.fits_open (by decide) (Nat.zero_le _) rfl rfl
    · rw [hother k hne]
      exact hi.fits k o hk
  case fresh => exact fun n hn => hi.fresh n (Nat.le_of_succ_le hn)
  case counted => exact hi.counted

/-- A cancel that was sent is only marked. -/
theorem lookup_cancelSent {k : List UInt8} (hk : (h.apply F (.cancelSent token)).tracker.orders.lookup k = some o) :
    ∃ o', h.tracker.orders.lookup k = some o' ∧ o.toCore = o'.toCore := by
  replace hk : (h.tracker.onCancelSent token).orders.lookup k = some o := hk
  unfold OUCHOrderTracker.onCancelSent at hk
  split at hk
  · rename_i o1 ho1
    split at hk
    · rcases lookup_insert_cases hk with ⟨rfl, rfl⟩ | ⟨-, hk⟩
      · exact ⟨o1, ho1, rfl⟩
      · exact ⟨o, hk, rfl⟩
    · exact ⟨o, hk, rfl⟩
  · exact ⟨o, hk, rfl⟩

theorem Inv.cancelSent (hi : h.Inv) (token : List UInt8) : (h.apply F (.cancelSent token)).Inv where
  ranged k o hk := by
    obtain ⟨o', hk', hcore⟩ := lookup_cancelSent hk
    rw [congrArg Core.remaining hcore]
    exact hi.ranged k o' hk'
  owned k o hk := by
    obtain ⟨o', hk', -⟩ := lookup_cancelSent hk
    exact hi.owned k o' hk'
  apart k k' o o' hk hk' howner := by
    obtain ⟨o1, hk1, -⟩ := lookup_cancelSent hk
    obtain ⟨o2, hk2, -⟩ := lookup_cancelSent hk'
    exact hi.apart k k' o1 o2 hk1 hk2 howner
  fits k o hk := by
    obtain ⟨o', hk', hcore⟩ := lookup_cancelSent hk
    rw [congrArg Core.state hcore]
    exact hi.fits k o' hk'
  fresh := hi.fresh
  counted := hi.counted

/-- The order goes on under another token. -/
theorem Inv.replaced (hi : h.Inv) {prev : List UInt8} (ho : h.tracker.orders.lookup prev = some o) (hs : ¬o.state.Terminal)
    (hrem : IsInt32 o'.remaining) (hs' : ¬o'.state.Terminal)
    (horders : h'.tracker.orders = (h.tracker.orders.erase prev).insert token o')
    (howner : h'.owner = update h.owner token (h.owner prev)) (hnext : h'.next = h.next) (hpart : h'.part = h.part) :
    h'.Inv := by
  have hlookup : ∀ k o1, h'.tracker.orders.lookup k = some o1 →
      k = token ∧ o1 = o' ∧ h'.owner k = h.owner prev ∨
        k ≠ prev ∧ h'.owner k = h.owner k ∧ h.tracker.orders.lookup k = some o1 := fun k o1 hk => by
    rw [horders] at hk
    rcases lookup_insert_cases hk with ⟨rfl, rfl⟩ | ⟨hne, hk⟩
    · exact .inl ⟨rfl, rfl, by rw [howner, update_self]⟩
    · by_cases e : k = prev
      · rw [e, AList.lookup_erase] at hk
        cases hk
      · rw [AList.lookup_erase_ne e] at hk
        exact .inr ⟨e, by rw [howner, update_of_ne hne], hk⟩
  constructor
  case ranged =>
    intro k o1 hk
    rcases hlookup k o1 hk with ⟨-, rfl, -⟩ | ⟨-, -, hk⟩
    · exact hrem
    · exact hi.ranged k o1 hk
  case owned =>
    intro k o1 hk
    rw [hnext]
    rcases hlookup k o1 hk with ⟨-, -, hown⟩ | ⟨-, hown, hk⟩
    · rw [hown]
      exact hi.owned prev o ho
    · rw [hown]
      exact hi.owned k o1 hk
  case apart =>
    intro k k' o1 o2 hk hk' he
    rcases hlookup k o1 hk with ⟨rfl, -, hown⟩ | ⟨hne, hown, hk⟩ <;>
      rcases hlookup k' o2 hk' with ⟨hk't, -, hown'⟩ | ⟨hne', hown', hk'⟩
    · exact hk't.symm
    · rw [hown, hown'] at he
      exact absurd (hi.apart prev k' o o2 ho hk' he).symm hne'
    · rw [hown, hown'] at he
      exact absurd (hi.apart k prev o1 o hk ho he) hne
    · rw [hown, hown'] at he
      exact hi.apart k k' o1 o2 hk hk' he
  case fits =>
    intro k o1 hk
    rw [hpart]
    rcases hlookup k o1 hk with ⟨-, rfl, hown⟩ | ⟨-, hown, hk⟩
    · obtain ⟨hf, hc, hr⟩ := (hi.fits prev o ho).open_order hs
      rw [hown]
      exact Part.fits_open hs' hf hc hr
    · rw [hown]
      exact hi.fits k o1 hk
  case fresh =>
    rw [hnext, hpart]
    exact hi.fresh
  case counted =>
    rw [hpart]
    exact hi.counted

/-- The order under `token` changes in place, and what it has added becomes `p`. -/
theorem Inv.reacted (hi : h.Inv) (ho : h.tracker.orders.lookup token = some o) (hrem : IsInt32 o'.remaining)
    (hgrown : p.Fits o'.state)
    (horders : ∀ k, h'.tracker.orders.lookup k = if k = token then some o' else h.tracker.orders.lookup k)
    (howner : h'.owner = h.owner) (hnext : h'.next = h.next) (hpart : h'.part = update h.part (h.owner token) p) :
    h'.Inv := by
  have hlookup : ∀ k o1, h'.tracker.orders.lookup k = some o1 →
      k = token ∧ o1 = o' ∨ k ≠ token ∧ h.tracker.orders.lookup k = some o1 := fun k o1 hk => by
    rw [horders] at hk
    split at hk
    · exact .inl ⟨‹_›, (Option.some.inj hk).symm⟩
    · exact .inr ⟨‹_›, hk⟩
  have hsome : ∀ k o1, h'.tracker.orders.lookup k = some o1 → ∃ o2, h.tracker.orders.lookup k = some o2 := fun k o1 hk => by
    rcases hlookup k o1 hk with ⟨rfl, -⟩ | ⟨-, hk⟩
    · exact ⟨o, ho⟩
    · exact ⟨o1, hk⟩
  constructor
  case ranged =>
    intro k o1 hk
    rcases hlookup k o1 hk with ⟨-, rfl⟩ | ⟨-, hk⟩
    · exact hrem
    · exact hi.ranged k o1 hk
  case owned =>
    intro k o1 hk
    obtain ⟨o2, hk⟩ := hsome k o1 hk
    rw [howner, hnext]
    exact hi.owned k o2 hk
  case apart =>
    intro k k' o1 o2 hk hk' he
    obtain ⟨o3, hk⟩ := hsome k o1 hk
    obtain ⟨o4, hk'⟩ := hsome k' o2 hk'
    rw [howner] at he
    exact hi.apart k k' o3 o4 hk hk' he
  case fits =>
    intro k o1 hk
    rw [hpart, howner]
    rcases hlookup k o1 hk with ⟨rfl, rfl⟩ | ⟨hne, hk⟩
    · rw [update_self]
      exact hgrown
    · rw [update_of_ne fun he => hne (hi.apart k token o1 o hk ho he)]
      exact hi.fits k o1 hk
  case fresh =>
    intro n hn
    rw [hnext] at hn
    have hown := hi.owned token o ho
    rw [hpart, update_of_ne (by omega)]
    exact hi.fresh n hn
  case counted =>
    intro n
    rw [hpart]
    by_cases e : n = h.owner token
    · rw [e, update_self]
      exact hgrown.counted
    · rw [update_of_ne e]
      exact hi.counted n

theorem Inv.response (hi : h.Inv) (ha : h.Admits (.response data)) : (h.apply F (.response data)).Inv := by
  have hshares := parseResponse_shares data
  unfold Admits at ha
  dsimp only at ha
  rcases apply_response_cases (F := F) h data with ⟨-, horders, howner, hnext, hpart⟩ |
    ⟨hr, o, ho, o', hrem, hs', horders, howner, hnext, hpart⟩ | ⟨hr, o, ho, o', hcore, horders, howner, hnext, hpart⟩
  · generalize h.apply F (.response data) = h' at horders howner hnext hpart ⊢
    constructor <;> simp only [horders, howner, hnext, hpart]
    · exact hi.ranged
    · exact hi.owned
    · exact hi.apart
    · exact hi.fits
    · exact hi.fresh
    · exact hi.counted
  · rw [if_pos hr, hr] at ha
    exact hi.replaced ho (ha o ho).1 hrem hs' horders howner hnext hpart
  · rw [if_neg hr] at ha
    have hgrown := Core.react_fits h.tracker.toCounts (hi.ranged _ o ho) (ha o ho) (hi.fits _ o ho)
    rw [← congrArg Core.state hcore] at hgrown
    have hranged := Core.react_ranged (hi.ranged _ o ho) hshares (parseResponse data).type
    rw [← congrArg Core.remaining hcore] at hranged
    exact hi.reacted ho hranged hgrown horders howner hnext hpart

theorem Inv.apply (hi : h.Inv) (ha : h.Admits e) : (h.apply F e).Inv := by
  cases e with
  | new token shares => exact hi.new token shares
  | cancelSent token => exact hi.cancelSent token
  | response data => exact hi.response ha

/-- What a response leaves of the terminal orders, and what the order it names has added then. -/
theorem good_response (hi : h.Inv) (ha : h.Admits (.response data)) : h.Good F (.response data) := by
  have hcounted := (hi.response (F := F) ha).counted
  have hnamed : ∀ k o, h.tracker.orders.lookup k = some o → o.state.Terminal →
      ∃ o', (h.apply F (.response data)).tracker.orders.lookup k = some o' ∧
        (o'.toCore = o.toCore ∨ (parseResponse data).token = k ∧ o.toCore.Admits (parseResponse data).shares (parseResponse data).type ∧
          o'.toCore = (o.toCore.react (parseResponse data).shares (parseResponse data).type).1) := by
    intro k o hk ht
    unfold Admits at ha
    dsimp only at ha
    rcases apply_response_cases (F := F) h data with ⟨-, horders, -⟩ | ⟨hr, o1, ho1, o', -, -, horders, -⟩ |
      ⟨hr, o1, ho1, o', hcore, horders, -⟩
    · exact ⟨o, by rw [horders, hk], .inl rfl⟩
    · rw [if_pos hr, hr] at ha
      have hprev : k ≠ (parseResponse data).prevToken := fun e => by
        rw [e, ho1] at hk
        cases hk
        exact (ha o ho1).1 ht
      have htoken : k ≠ (parseResponse data).token := fun e => (ha o1 ho1).2 o (e ▸ hk) ht
      exact ⟨o, by rw [horders, AList.lookup_insert_ne htoken, AList.lookup_erase_ne hprev, hk], .inl rfl⟩
    · rw [if_neg hr] at ha
      by_cases e : k = (parseResponse data).token
      · have heq : o1 = o := by
          rw [e, ho1] at hk
          exact Option.some.inj hk
        subst heq
        exact ⟨o', by rw [horders, if_pos e], .inr ⟨e.symm, ha o1 ho1, hcore⟩⟩
      · exact ⟨o, by rw [horders, if_neg e, hk], .inl rfl⟩
  constructor
  case frozen =>
    intro data' he hl k o hk ht
    cases he
    obtain ⟨o', hk', hcore | ⟨-, hadm, hcore⟩⟩ := hnamed k o hk ht
    · exact ⟨o', hk', congrArg Core.state hcore, congrArg Core.remaining hcore, congrArg Core.filled hcore⟩
    · rw [Core.react_frozen (hi.ranged k o hk) hadm ht hl] at hcore
      exact ⟨o', hk', congrArg Core.state hcore, congrArg Core.remaining hcore, congrArg Core.filled hcore⟩
  case reopened =>
    intro k o _ hk ht
    obtain ⟨o', hk', hcore | ⟨htoken, hadm, hcore⟩⟩ := hnamed k o hk ht
    · refine ⟨o', hk', .inl ?_⟩
      rwa [congrArg Core.state hcore]
    · refine ⟨o', hk', ?_⟩
      rcases Core.react_terminal hadm ht with hterm | ⟨hbroken, hfilled⟩
      · left
        rwa [congrArg Core.state hcore]
      · exact .inr ⟨data, rfl, hbroken, htoken, hfilled⟩
  case counted => exact hcounted

theorem good_of_admits (hi : h.Inv) (ha : h.Admits e) : h.Good F e := by
  cases e with
  | new token shares =>
    constructor
    case frozen => exact fun _ he => by cases he
    case reopened =>
      intro k o hne hk ht
      have hkt : k ≠ token := fun e => hne shares (by rw [e])
      exact ⟨o, (AList.lookup_insert_ne hkt).trans hk, .inl ht⟩
    case counted => exact (hi.new (F := F) token shares).counted
  | cancelSent token =>
    constructor
    case frozen => exact fun _ he => by cases he
    case reopened =>
      intro k o _ hk ht
      refine ⟨o, ?_, .inl ht⟩
      show (h.tracker.onCancelSent token).orders.lookup k = some o
      unfold OUCHOrderTracker.onCancelSent
      split
      · rename_i o1 ho1
        split
        · rename_i hs
          have hkt : k ≠ token := fun e => by
            rw [e, ho1] at hk
            cases hk
            rcases hs with hs | hs <;> rw [hs] at ht <;> exact absurd ht (by decide)
          exact (AList.lookup_insert_ne hkt).trans hk
        · exact hk
      · exact hk
    case counted => exact hi.counted
  | response data => exact good_response hi ha

/-- A replacement that hits a terminal order reopens it. -/
theorem admits_of_good (hi : h.Inv) (hg : h.Good F e) : h.Admits e := by
  cases e with
  | new token shares => trivial
  | cancelSent token => trivial
  | response data =>
    have hshares := parseResponse_shares data
    obtain ⟨hfrozen, hreopened, hcounted⟩ := hg
    replace hfrozen := hfrozen data rfl
    replace hreopened := fun k o => hreopened k o fun _ => by intro h; cases h
    unfold Admits
    dsimp only
    rcases apply_response_cases (F := F) h data with ⟨hnone, -⟩ | ⟨hr, o, ho, o', -, hs', horders, -⟩ |
      ⟨hr, o, ho, o', hcore, horders, -, -, hpart⟩
    · split <;> rename_i hr
      · rw [if_pos hr] at hnone
        intro o ho
        rw [hnone] at ho
        cases ho
      · rw [if_neg hr] at hnone
        intro o ho
        rw [hnone] at ho
        cases ho
    · rw [if_pos hr]
      intro o1 ho1
      have hnotBroken : (parseResponse data).type ≠ .broken := by rw [hr]; decide
      have hnew : (h.apply F (.response data)).tracker.orders.lookup (parseResponse data).token = some o' := by
        rw [horders, AList.lookup_insert]
      have htoken : ∀ o2, h.tracker.orders.lookup (parseResponse data).token = some o2 → ¬o2.state.Terminal := fun o2 ho2 ht => by
        obtain ⟨o3, hk, hterm | ⟨data', he, hb, -⟩⟩ := hreopened _ o2 ho2 ht
        · rw [hnew] at hk
          cases hk
          exact hs' hterm
        · cases he
          exact hnotBroken hb
      refine ⟨?_, htoken⟩
      rw [hr]
      intro ht
      by_cases e : (parseResponse data).prevToken = (parseResponse data).token
      · exact htoken o1 (e ▸ ho1) ht
      · obtain ⟨o3, hk, -⟩ := hreopened _ o1 ho1 ht
        rw [horders, AList.lookup_insert_ne e, AList.lookup_erase] at hk
        cases hk
    · rw [if_neg hr]
      intro o1 ho1
      have heq : o = o1 := by
        rw [ho] at ho1
        exact Option.some.inj ho1
      subst heq
      have hnew : (h.apply F (.response data)).tracker.orders.lookup (parseResponse data).token = some o' := by
        rw [horders, if_pos rfl]
      refine Core.admits_of_clean h.tracker.toCounts (hi.ranged _ o ho) hshares (hi.fits _ o ho) hr ⟨?_, ?_, ?_⟩
      · intro hl ht
        obtain ⟨o3, hk, h1, h2, h3⟩ := hfrozen hl _ o ho ht
        rw [hnew] at hk
        cases hk
        rw [← hcore]
        have h4 : o'.original = o.original := by
          rw [congrArg Core.original hcore, Core.react_original]
        exact Core.ext h1 h4 h2 h3
      · intro ht
        obtain ⟨o3, hk, hterm | ⟨data', he, hb, -, hf⟩⟩ := hreopened _ o ho ht
        · rw [hnew] at hk
          cases hk
          left
          rwa [← hcore]
        · cases he
          exact .inr ⟨hb, hf⟩
      · have := hcounted (h.owner (parseResponse data).token)
        rwa [hpart, update_self] at this

/-- A run is good at each of its steps exactly when each response is one that the orders can take. -/
theorem terminal_frozen_iff (F : Doubles D) (events : List Event) :
    Throughout F (Good F) (init F) events ↔ Throughout F Admits (init F) events := by
  have hrun : ∀ h : History D, h.Inv → (Throughout F (Good F) h events ↔ Throughout F Admits h events) := by
    induction events with
    | nil => exact fun _ _ => Iff.rfl
    | cons e events ih =>
      intro h hi
      constructor
      · intro hg
        have ha := admits_of_good hi hg.1
        exact ⟨ha, (ih _ (hi.apply ha)).mp hg.2⟩
      · intro ha
        exact ⟨good_of_admits hi ha.1, (ih _ (hi.apply ha.1)).mpr ha.2⟩
  exact hrun _ Inv.init

def sampleAccepted : List UInt8 := (encodeAccepted [65] 'B'.toUInt8 100 [88] 10000 7 'D'.toUInt8).message []

def sampleExecuted : List UInt8 := (encodeExecuted [65] 100 10000 9).message []

def sampleFilled : History Int :=
  (((init wholeDoubles).apply wholeDoubles (.new [65] ⟨100, by decide⟩)).apply wholeDoubles (.response sampleAccepted)).apply
    wholeDoubles (.response sampleExecuted)

/-- A duplicate of the accepted report makes the filled order live again. -/
theorem accepted_reopens_filled :
    ¬Throughout wholeDoubles (Good wholeDoubles) (init wholeDoubles)
      [.new [65] ⟨100, by decide⟩, .response sampleAccepted, .response sampleExecuted, .response sampleAccepted] := by
  rintro ⟨-, -, -, hgood, -⟩
  have hbefore : (sampleFilled.tracker.orders.lookup [65]).map (·.state) = some .filled := by decide +kernel
  have hafter : ((sampleFilled.apply wholeDoubles (.response sampleAccepted)).tracker.orders.lookup [65]).map (·.state) =
      some .live := by decide +kernel
  obtain ⟨o, ho, hs⟩ := Option.map_eq_some_iff.mp hbefore
  obtain ⟨o', ho', hs', -⟩ := hgood.frozen _ rfl (.inl (by decide +kernel)) _ o ho (.inl hs)
  obtain ⟨o₁, ho₁, hs₁⟩ := Option.map_eq_some_iff.mp hafter
  have heq : o' = o₁ := Option.some.inj (ho'.symm.trans ho₁)
  rw [← heq, hs', hs] at hs₁
  cases hs₁

end History

end HftLab.Ouch
