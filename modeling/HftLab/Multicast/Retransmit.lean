/-
  HftLab.Multicast.Retransmit — the life of a retransmit request (gap_recovery.hpp).

  A number that is asked for is sent again a timeout after it was sent last, until it arrives or was sent `maxAttempts` times; a
  further timeout gives it up. `trace` tells what happened to which number in a run, and `lives` reads the registrations of one
  number off it (`Life.Good`).

  Times are 64-bit; their difference is wrapped.
-/

import HftLab.Lib.Tally

namespace HftLab.Multicast

open Lib List AList

structure Request where
  lastSentNs : Int
  attempts : Int
  deriving DecidableEq, Repr

structure RetransmitTracker where
  timeoutNs : Int := 1000000
  maxAttempts : Int := 3
  pending : Table Nat Request := ∅
  fulfilled : Nat := 0
  escalated : Nat := 0

namespace RetransmitTracker

variable (t : RetransmitTracker)

/-- Nothing happens to a number that is pending. -/
def request (seq : Nat) (nowNs : Int) : RetransmitTracker :=
  match t.pending.lookup seq with
  | some _ => t
  | none => { t with pending := t.pending.insert seq { lastSentNs := nowNs, attempts := 1 } }

def onReceived (seq : Nat) : RetransmitTracker :=
  match t.pending.lookup seq with
  | some _ => { t with pending := t.pending.erase seq, fulfilled := t.fulfilled + 1 }
  | none => t

/-- One turn of the loop of `poll`, with the retries so far. -/
def pollOne (nowNs : Int) (x : Nat × RetransmitTracker) (e : Sigma fun _ : Nat => Request) : Nat × RetransmitTracker :=
  if x.2.timeoutNs ≤ i64 (nowNs - e.2.lastSentNs) then
    if e.2.attempts < x.2.maxAttempts then
      (x.1 + 1, { x.2 with pending := x.2.pending.insert e.1 { lastSentNs := nowNs, attempts := e.2.attempts + 1 } })
    else (x.1, { x.2 with escalated := x.2.escalated + 1, pending := x.2.pending.erase e.1 })
  else x

/-- How many numbers are to be sent again. -/
def poll (nowNs : Int) : Nat × RetransmitTracker := t.pending.entries.foldl (pollOne nowNs) (0, t)

def outstanding : Nat := t.pending.entries.length

end RetransmitTracker

/-! ## Runs -/

inductive RetransmitEvent where
  | request (seq : Nat) (nowNs : Int)
  | onReceived (seq : Nat)
  | poll (nowNs : Int)
  deriving DecidableEq, Repr

/-- The time of an event that has one. -/
def RetransmitEvent.time? : RetransmitEvent → Option Int
  | .request _ nowNs => some nowNs
  | .onReceived _ => none
  | .poll nowNs => some nowNs

/-- What happens to a number. -/
inductive Act where
  | registered (at_ : Int)
  | resent (at_ : Int)
  | fulfilled
  | escalated (at_ : Int)
  deriving DecidableEq, Repr

namespace Act

def isRegistered : Act → Bool
  | .registered _ => true
  | _ => false

def isResent : Act → Bool
  | .resent _ => true
  | _ => false

def isFulfilled : Act → Bool
  | .fulfilled => true
  | _ => false

def isEscalated : Act → Bool
  | .escalated _ => true
  | _ => false

end Act

inductive Ending where
  | fulfilled
  | escalated (at_ : Int)
  deriving DecidableEq, Repr

/-- One registration: when it was sent, and how it ended. -/
structure Life where
  sends : List Int := []
  ends : List Ending := []

namespace RetransmitTracker

variable (t : RetransmitTracker)

def exec : RetransmitEvent → RetransmitTracker
  | .request seq nowNs => t.request seq nowNs
  | .onReceived seq => t.onReceived seq
  | .poll nowNs => (t.poll nowNs).2

/-- What a poll did to a request: it is gone, or has one more attempt, or is as it was. -/
def pollAct (nowNs : Int) (before : Request) : Option Request → Option Act
  | none => some (.escalated nowNs)
  | some after => if before.attempts < after.attempts then some (.resent nowNs) else none

def acts : RetransmitEvent → List (Nat × Act)
  | .request seq nowNs => if (t.pending.lookup seq).isNone then [(seq, .registered nowNs)] else []
  | .onReceived seq => if (t.pending.lookup seq).isSome then [(seq, .fulfilled)] else []
  | .poll nowNs => t.pending.entries.filterMap fun e =>
      (pollAct nowNs e.2 ((t.poll nowNs).2.pending.lookup e.1)).map fun act => (e.1, act)

end RetransmitTracker

/-- The registrations, the last one first, after one more act. -/
def Life.next (lives : List Life) (act : Act) : List Life :=
  let life := lives.headD {}
  match act with
  | .registered at_ => { sends := [at_] } :: lives
  | .resent at_ => { life with sends := life.sends ++ [at_] } :: lives.tail
  | .fulfilled => { life with ends := life.ends ++ [.fulfilled] } :: lives.tail
  | .escalated at_ => { life with ends := life.ends ++ [.escalated at_] } :: lives.tail

/-- The registrations of `seq`. -/
def lives (seq : Nat) (trace : List (Nat × Act)) : List Life :=
  ((trace.filter (·.1 = seq)).map Prod.snd).foldl Life.next []

structure Life.Good (timeoutNs maxAttempts : Int) (life : Life) : Prop where
  sent : life.sends ≠ []
  budget : (life.sends.length : Int) ≤ maxAttempts
  spaced : life.sends.IsChain fun a b => timeoutNs ≤ b - a
  once : life.ends.length ≤ 1
  patient : ∀ at_, .escalated at_ ∈ life.ends →
    (life.sends.length : Int) = maxAttempts ∧ ∀ last ∈ life.sends.getLast?, timeoutNs ≤ at_ - last

section

variable {nowNs : Int} {timeoutNs maxAttempts : Int} {life : Life}

theorem Life.Good.fresh (hmax : 1 ≤ maxAttempts) (nowNs : Int) : Life.Good timeoutNs maxAttempts { sends := [nowNs] } :=
  ⟨by simp, hmax, isChain_singleton _, Nat.zero_le _, nofun⟩

/-- An open registration is sent once more. -/
theorem Life.Good.resend (h : life.Good timeoutNs maxAttempts) (hopen : life.ends = [])
    (hmore : (life.sends.length : Int) < maxAttempts) (hdue : ∀ last ∈ life.sends.getLast?, timeoutNs ≤ nowNs - last) :
    Life.Good timeoutNs maxAttempts { life with sends := life.sends ++ [nowNs] } where
  sent := by simp
  budget := by
    rw [length_append]
    push_cast
    exact hmore
  spaced := by
    refine isChain_append.mpr ⟨h.spaced, isChain_singleton _, fun last hlast now hnow => ?_⟩
    rw [List.head?_cons, Option.mem_some_iff] at hnow
    subst hnow
    exact hdue last hlast
  once := h.once
  patient at_ hat := by
    rw [hopen] at hat
    cases hat

theorem Life.Good.fulfill (h : life.Good timeoutNs maxAttempts) (hopen : life.ends = []) :
    Life.Good timeoutNs maxAttempts { life with ends := life.ends ++ [.fulfilled] } where
  sent := h.sent
  budget := h.budget
  spaced := h.spaced
  once := by simp [hopen]
  patient at_ hat := by
    simp [hopen] at hat

/-- An open registration is given up. -/
theorem Life.Good.escalate (h : life.Good timeoutNs maxAttempts) (hopen : life.ends = [])
    (hspent : maxAttempts ≤ life.sends.length) (hdue : ∀ last ∈ life.sends.getLast?, timeoutNs ≤ nowNs - last) :
    Life.Good timeoutNs maxAttempts { life with ends := life.ends ++ [.escalated nowNs] } where
  sent := h.sent
  budget := h.budget
  spaced := h.spaced
  once := by simp [hopen]
  patient at_ hat := by
    have hat : at_ = nowNs := by simpa [hopen] using hat
    subst hat
    exact ⟨Int.le_antisymm h.budget hspent, hdue⟩

end

namespace RetransmitTracker

/-- The run so far: what happened, and the tracker. -/
def step (x : List (Nat × Act) × RetransmitTracker) (e : RetransmitEvent) : List (Nat × Act) × RetransmitTracker :=
  (x.1 ++ x.2.acts e, x.2.exec e)

def run (timeoutNs maxAttempts : Int) (events : List RetransmitEvent) : List (Nat × Act) × RetransmitTracker :=
  events.foldl step ([], { timeoutNs, maxAttempts })

/-- How often something happened. -/
def countActs (p : Act → Bool) (trace : List (Nat × Act)) : Nat := trace.countP fun x => p x.2

variable {t} {nowNs : Int} {k : Nat} {e : RetransmitEvent}

/-! ## One poll -/

/-- What a poll makes of a request. -/
def keep (t : RetransmitTracker) (nowNs : Int) (r : Request) : Option Request :=
  if t.timeoutNs ≤ i64 (nowNs - r.lastSentNs) then
    if r.attempts < t.maxAttempts then some { lastSentNs := nowNs, attempts := r.attempts + 1 } else none
  else some r

/-- What the poll does to it, as `pollAct` tells. -/
def turn (t : RetransmitTracker) (nowNs : Int) (r : Request) : Option Act := pollAct nowNs r (t.keep nowNs r)

/-- From `x` to `y`, over the requests `l`. -/
structure Polled (nowNs : Int) (l : List (Sigma fun _ : Nat => Request)) (x y : Nat × RetransmitTracker) : Prop where
  timeoutNs : y.2.timeoutNs = x.2.timeoutNs
  maxAttempts : y.2.maxAttempts = x.2.maxAttempts
  fulfilled : y.2.fulfilled = x.2.fulfilled
  kept : ∀ e ∈ l, y.2.pending.lookup e.1 = x.2.keep nowNs e.2
  other : ∀ k, k ∉ l.keys → y.2.pending.lookup k = x.2.pending.lookup k
  retries : y.1 = x.1 + l.countP fun e => x.2.turn nowNs e.2 = some (.resent nowNs)
  escalated : y.2.escalated = x.2.escalated + l.countP fun e => x.2.turn nowNs e.2 = some (.escalated nowNs)
  balance : y.2.escalated + y.2.outstanding = x.2.escalated + x.2.outstanding

theorem pollOne_polled (nowNs : Int) {x : Nat × RetransmitTracker} {e : Sigma fun _ : Nat => Request}
    (h : x.2.pending.lookup e.1 = some e.2) :
    Polled nowNs [e] x (pollOne nowNs x e) := by
  have hkeys : ∀ k, k ∉ List.keys [e] ↔ k ≠ e.1 := by simp [List.keys]
  have hlength := (entries_perm_erase h).length_eq
  unfold pollOne
  by_cases hdue : x.2.timeoutNs ≤ i64 (nowNs - e.2.lastSentNs)
  · by_cases hmore : e.2.attempts < x.2.maxAttempts
    · have hkeep : x.2.keep nowNs e.2 = some { lastSentNs := nowNs, attempts := e.2.attempts + 1 } := by
        simp [keep, hdue, hmore]
      rw [if_pos hdue, if_pos hmore]
      refine ⟨rfl, rfl, rfl, fun e' he' => ?_, fun k hk => lookup_insert_ne ((hkeys k).mp hk),
        ?_, ?_, ?_⟩
      · rw [mem_singleton] at he'
        rw [he', hkeep]
        exact lookup_insert _
      · simp [turn, pollAct, hkeep]
      · simp [turn, pollAct, hkeep]
      · unfold outstanding
        rw [entries_insert]
        exact congrArg (x.2.escalated + ·) hlength.symm
    · have hkeep : x.2.keep nowNs e.2 = none := by
        simp [keep, hdue, hmore]
      rw [if_pos hdue, if_neg hmore]
      refine ⟨rfl, rfl, rfl, fun e' he' => ?_, fun k hk => lookup_erase_ne ((hkeys k).mp hk), ?_,
        ?_, ?_⟩
      · rw [mem_singleton] at he'
        rw [he', hkeep]
        exact lookup_erase _ _
      · simp [turn, pollAct, hkeep]
      · simp [turn, pollAct, hkeep]
      · unfold outstanding
        dsimp only
        rw [hlength, length_cons]
        omega
  · have hkeep : x.2.keep nowNs e.2 = some e.2 := by
      simp [keep, hdue]
    rw [if_neg hdue]
    refine ⟨rfl, rfl, rfl, fun e' he' => ?_, fun _ _ => rfl, ?_, ?_, rfl⟩
    · rw [mem_singleton] at he'
      rw [he', hkeep]
      exact h
    · simp [turn, pollAct, hkeep]
    · simp [turn, pollAct, hkeep]

theorem Polled.cons {x y z : Nat × RetransmitTracker} {e : Sigma fun _ : Nat => Request} {l : List (Sigma fun _ : Nat => Request)}
    (h : Polled nowNs [e] x y) (hrest : Polled nowNs l y z) (hfresh : e.1 ∉ l.keys) : Polled nowNs (e :: l) x z := by
  have hkeep : y.2.keep nowNs = x.2.keep nowNs := by
    funext r
    unfold keep
    rw [h.timeoutNs, h.maxAttempts]
  have hturn : y.2.turn nowNs = x.2.turn nowNs := by
    funext r
    unfold turn
    rw [hkeep]
  refine ⟨hrest.timeoutNs.trans h.timeoutNs, hrest.maxAttempts.trans h.maxAttempts, hrest.fulfilled.trans h.fulfilled,
    fun e' he' => ?_, fun k hk => ?_, ?_, ?_, hrest.balance.trans h.balance⟩
  · rcases mem_cons.mp he' with rfl | he'
    · rw [hrest.other _ hfresh]
      exact h.kept e' mem_cons_self
    · rw [hrest.kept e' he', hkeep]
  · rw [keys_cons, mem_cons, not_or] at hk
    rw [hrest.other k hk.2]
    exact h.other k (by simpa [List.keys] using hk.1)
  · have hone := h.retries
    have hmore := hrest.retries
    rw [hturn] at hmore
    rw [countP_cons]
    rw [countP_singleton] at hone
    omega
  · have hone := h.escalated
    have hmore := hrest.escalated
    rw [hturn] at hmore
    rw [countP_cons]
    rw [countP_singleton] at hone
    omega

theorem pollOne_foldl (l : List (Sigma fun _ : Nat => Request)) (hl : l.NodupKeys) (x : Nat × RetransmitTracker)
    (hx : ∀ e ∈ l, x.2.pending.lookup e.1 = some e.2) : Polled nowNs l x (l.foldl (pollOne nowNs) x) := by
  induction l generalizing x with
  | nil => exact ⟨rfl, rfl, rfl, nofun, fun _ _ => rfl, rfl, rfl, rfl⟩
  | cons e l ih =>
    obtain ⟨hfresh, hl⟩ := nodupKeys_cons.mp hl
    have hone := pollOne_polled nowNs (hx e mem_cons_self)
    refine hone.cons (ih hl _ fun e' he' => ?_) hfresh
    have hne : e'.1 ≠ e.1 := fun heq => hfresh (heq ▸ mem_keys_of_mem he')
    rw [hone.other e'.1 (by simpa [List.keys] using hne)]
    exact hx e' (mem_cons_of_mem _ he')

theorem poll_polled (t : RetransmitTracker) (nowNs : Int) : Polled nowNs t.pending.entries (0, t) (t.poll nowNs) :=
  pollOne_foldl _ t.pending.nodupKeys _ fun _ he => mem_lookup_iff.mpr he

theorem poll_lookup (t : RetransmitTracker) (nowNs : Int) (k : Nat) :
    (t.poll nowNs).2.pending.lookup k = (t.pending.lookup k).bind (t.keep nowNs) := by
  have hpolled := poll_polled t nowNs
  cases hk : t.pending.lookup k with
  | none => exact (hpolled.other k (lookup_eq_none.mp hk)).trans hk
  | some r => exact hpolled.kept ⟨k, r⟩ (mem_lookup_iff.mp hk)

/-! ## What happens to one number -/

/-- What an event does to `k`. -/
def actOf (t : RetransmitTracker) (k : Nat) : RetransmitEvent → Option Act
  | .request seq nowNs => if seq = k ∧ (t.pending.lookup seq).isNone then some (.registered nowNs) else none
  | .onReceived seq => if seq = k ∧ (t.pending.lookup seq).isSome then some .fulfilled else none
  | .poll nowNs => (t.pending.lookup k).bind (t.turn nowNs)

theorem acts_poll (t : RetransmitTracker) (nowNs : Int) :
    t.acts (.poll nowNs) = t.pending.entries.filterMap fun e => (t.turn nowNs e.2).map fun act => (e.1, act) := by
  refine filterMap_congr fun e he => ?_
  rw [poll_lookup, mem_lookup_iff.mpr he]
  rfl

theorem filter_filterMap_key (l : List (Sigma fun _ : Nat => Request)) (hl : l.NodupKeys) (f : Request → Option Act) :
    ((l.filterMap fun e => (f e.2).map fun act => (e.1, act)).filter (·.1 = k)).map Prod.snd = ((l.dlookup k).bind f).toList := by
  induction l with
  | nil => rfl
  | cons e l ih =>
    obtain ⟨hfresh, hl⟩ := nodupKeys_cons.mp hl
    have hrest := ih hl
    by_cases hk : e.1 = k
    · subst hk
      have hnone : l.dlookup e.1 = none := dlookup_eq_none.mpr hfresh
      rw [hnone] at hrest
      rw [show List.dlookup e.1 (e :: l) = some e.2 from dlookup_cons_eq l e.1 e.2, filterMap_cons]
      cases hf : f e.2 with
      | none => simpa [hf] using hrest
      | some act =>
        simp only [Option.map_some, filter_cons_of_pos, decide_true, map_cons, hrest]
        simp [hf]
    · rw [dlookup_cons_ne l e (Ne.symm hk), filterMap_cons, ← hrest]
      cases hf : f e.2 with
      | none => rfl
      | some act => simp [hk]

theorem acts_of (t : RetransmitTracker) (k : Nat) (e : RetransmitEvent) :
    ((t.acts e).filter (·.1 = k)).map Prod.snd = (t.actOf k e).toList := by
  cases e with
  | request seq nowNs =>
    unfold acts actOf
    by_cases hnew : (t.pending.lookup seq).isNone
    · by_cases hk : seq = k
      · simp [hnew, hk]
      · simp [hnew, hk]
    · simp only [hnew, Bool.false_eq_true, and_false, if_false]
      rfl
  | onReceived seq =>
    unfold acts actOf
    by_cases hold : (t.pending.lookup seq).isSome
    · by_cases hk : seq = k
      · simp [hold, hk]
      · simp [hold, hk]
    · simp only [hold, Bool.false_eq_true, and_false, if_false]
      rfl
  | poll nowNs =>
    rw [acts_poll]
    exact filter_filterMap_key _ t.pending.nodupKeys _

/-- A number is left alone, registered, sent again, fulfilled or given up. -/
theorem exec_cases (t : RetransmitTracker) (k : Nat) (e : RetransmitEvent) :
    (t.actOf k e = none ∧ (t.exec e).pending.lookup k = t.pending.lookup k) ∨
    (∃ nowNs, e.time? = some nowNs ∧ t.actOf k e = some (.registered nowNs) ∧ t.pending.lookup k = none ∧
      (t.exec e).pending.lookup k = some { lastSentNs := nowNs, attempts := 1 }) ∨
    (∃ nowNs r, e.time? = some nowNs ∧ t.actOf k e = some (.resent nowNs) ∧ t.pending.lookup k = some r ∧
      t.timeoutNs ≤ i64 (nowNs - r.lastSentNs) ∧ r.attempts < t.maxAttempts ∧
      (t.exec e).pending.lookup k = some { lastSentNs := nowNs, attempts := r.attempts + 1 }) ∨
    (∃ r, t.actOf k e = some .fulfilled ∧ t.pending.lookup k = some r ∧ (t.exec e).pending.lookup k = none) ∨
    (∃ nowNs r, e.time? = some nowNs ∧ t.actOf k e = some (.escalated nowNs) ∧ t.pending.lookup k = some r ∧
      t.timeoutNs ≤ i64 (nowNs - r.lastSentNs) ∧ t.maxAttempts ≤ r.attempts ∧ (t.exec e).pending.lookup k = none) := by
  cases e with
  | request seq nowNs =>
    dsimp only [exec, request, actOf]
    cases hseq : t.pending.lookup seq with
    | some r => exact .inl ⟨by simp, rfl⟩
    | none =>
      by_cases hk : seq = k
      · subst hk
        exact .inr (.inl ⟨nowNs, rfl, by simp, hseq, lookup_insert _⟩)
      · exact .inl ⟨by simp [hk], lookup_insert_ne (Ne.symm hk)⟩
  | onReceived seq =>
    dsimp only [exec, onReceived, actOf]
    cases hseq : t.pending.lookup seq with
    | none => exact .inl ⟨by simp, rfl⟩
    | some r =>
      by_cases hk : seq = k
      · subst hk
        exact .inr (.inr (.inr (.inl ⟨r, by simp, hseq, lookup_erase _ _⟩)))
      · exact .inl ⟨by simp [hk], lookup_erase_ne (Ne.symm hk)⟩
  | poll nowNs =>
    dsimp only [exec, actOf]
    rw [poll_lookup]
    cases hk : t.pending.lookup k with
    | none => exact .inl ⟨rfl, rfl⟩
    | some r =>
      dsimp only [Option.bind_some]
      by_cases hdue : t.timeoutNs ≤ i64 (nowNs - r.lastSentNs)
      · by_cases hmore : r.attempts < t.maxAttempts
        · have hkeep : t.keep nowNs r = some { lastSentNs := nowNs, attempts := r.attempts + 1 } := by
            simp [keep, hdue, hmore]
          exact .inr (.inr (.inl ⟨nowNs, r, rfl, by simp [turn, pollAct, hkeep], rfl, hdue, hmore, hkeep⟩))
        · have hkeep : t.keep nowNs r = none := by
            simp [keep, hdue, hmore]
          exact .inr (.inr (.inr (.inr ⟨nowNs, r, rfl, by simp [turn, pollAct, hkeep], rfl, hdue, Int.not_lt.mp hmore, hkeep⟩)))
      · have hkeep : t.keep nowNs r = some r := by
          simp [keep, hdue]
        exact .inl ⟨by simp [turn, pollAct, hkeep], hkeep⟩

/-! ## The counters -/

theorem turn_cases (t : RetransmitTracker) (nowNs : Int) (r : Request) :
    t.turn nowNs r = none ∨ t.turn nowNs r = some (.resent nowNs) ∨ t.turn nowNs r = some (.escalated nowNs) := by
  unfold turn
  cases t.keep nowNs r with
  | none => exact .inr (.inr rfl)
  | some after =>
    by_cases hmore : r.attempts < after.attempts
    · exact .inr (.inl (if_pos hmore))
    · exact .inl (if_neg hmore)

theorem countActs_poll (p : Act → Bool) (t : RetransmitTracker) (nowNs : Int) :
    countActs p (t.acts (.poll nowNs)) = t.pending.entries.countP fun e => (t.turn nowNs e.2).any p := by
  unfold countActs
  rw [acts_poll, countP_filterMap]
  congr 1
  funext e
  cases t.turn nowNs e.2 <;> rfl

theorem countActs_append (p : Act → Bool) (tr tr' : List (Nat × Act)) : countActs p (tr ++ tr') = countActs p tr + countActs p tr' :=
  countP_append

/-- The retries that a poll returns are the numbers it sent again. -/
theorem poll_counts (t : RetransmitTracker) (nowNs : Int) :
    (t.poll nowNs).1 = countActs Act.isResent (t.acts (.poll nowNs)) ∧
    (t.poll nowNs).2.escalated = t.escalated + countActs Act.isEscalated (t.acts (.poll nowNs)) ∧
    countActs Act.isRegistered (t.acts (.poll nowNs)) = 0 ∧ countActs Act.isFulfilled (t.acts (.poll nowNs)) = 0 := by
  have hpolled := poll_polled t nowNs
  simp only [countActs_poll, hpolled.retries, hpolled.escalated, Nat.zero_add, countP_eq_zero]
  refine ⟨countP_congr fun e _ => ?_, congrArg (t.escalated + ·) (countP_congr fun e _ => ?_), fun e _ => ?_, fun e _ => ?_⟩
  all_goals
    rcases turn_cases t nowNs e.2 with h | h | h <;> simp [h, Act.isResent, Act.isEscalated, Act.isRegistered, Act.isFulfilled]

theorem exec_counts (t : RetransmitTracker) (e : RetransmitEvent) :
    (t.exec e).fulfilled = t.fulfilled + countActs Act.isFulfilled (t.acts e) ∧
    (t.exec e).escalated = t.escalated + countActs Act.isEscalated (t.acts e) ∧
    (t.exec e).fulfilled + (t.exec e).escalated + (t.exec e).outstanding =
      t.fulfilled + t.escalated + t.outstanding + countActs Act.isRegistered (t.acts e) := by
  cases e with
  | request seq nowNs =>
    dsimp only [exec, request, acts]
    cases hseq : t.pending.lookup seq with
    | some r => exact ⟨rfl, rfl, rfl⟩
    | none =>
      refine ⟨rfl, rfl, ?_⟩
      unfold outstanding
      rw [entries_insert_of_notMem (lookup_eq_none.mp hseq)]
      rfl
  | onReceived seq =>
    dsimp only [exec, onReceived, acts]
    cases hseq : t.pending.lookup seq with
    | none => exact ⟨rfl, rfl, rfl⟩
    | some r =>
      refine ⟨rfl, rfl, ?_⟩
      have hlength := (entries_perm_erase hseq).length_eq
      rw [length_cons] at hlength
      show t.fulfilled + 1 + t.escalated + (t.pending.erase seq).entries.length = t.fulfilled + t.escalated + t.pending.entries.length + 0
      omega
  | poll nowNs =>
    obtain ⟨-, hescalated, hregistered, hfulfilled⟩ := poll_counts t nowNs
    have hpolled := poll_polled t nowNs
    have hsame := hpolled.fulfilled
    have hbalance := hpolled.balance
    refine ⟨?_, hescalated, ?_⟩
    · rw [hfulfilled]
      exact hsame
    · rw [hregistered]
      dsimp only [exec] at hsame hbalance ⊢
      omega

theorem exec_config (t : RetransmitTracker) (e : RetransmitEvent) :
    (t.exec e).timeoutNs = t.timeoutNs ∧ (t.exec e).maxAttempts = t.maxAttempts := by
  cases e with
  | request seq nowNs =>
    dsimp only [exec, request]
    split <;> exact ⟨rfl, rfl⟩
  | onReceived seq =>
    dsimp only [exec, onReceived]
    split <;> exact ⟨rfl, rfl⟩
  | poll nowNs => exact ⟨(poll_polled t nowNs).timeoutNs, (poll_polled t nowNs).maxAttempts⟩

/-! ## The lives of one number -/

/-- After `events`. -/
structure Tracked (timeoutNs maxAttempts : Int) (events : List RetransmitEvent) (x : List (Nat × Act) × RetransmitTracker) : Prop where
  timeout_eq : x.2.timeoutNs = timeoutNs
  max_eq : x.2.maxAttempts = maxAttempts
  good : ∀ k, ∀ life ∈ lives k x.1, life.Good timeoutNs maxAttempts
  pending : ∀ k r, x.2.pending.lookup k = some r → ∃ life rest, lives k x.1 = life :: rest ∧ life.ends = [] ∧
    life.sends.getLast? = some r.lastSentNs ∧ (life.sends.length : Int) = r.attempts ∧ some r.lastSentNs ∈ events.map RetransmitEvent.time?

theorem lives_append (k : Nat) (t : RetransmitTracker) (tr : List (Nat × Act)) (e : RetransmitEvent) :
    lives k (tr ++ t.acts e) = (t.actOf k e).toList.foldl Life.next (lives k tr) := by
  unfold lives
  rw [filter_append, map_append, foldl_append, acts_of]

theorem Tracked.step {timeoutNs maxAttempts : Int} {events : List RetransmitEvent} {x : List (Nat × Act) × RetransmitTracker}
    (h : Tracked timeoutNs maxAttempts events x) (hmax : 1 ≤ maxAttempts) (e : RetransmitEvent)
    (htime : ∀ nowNs past, e.time? = some nowNs → some past ∈ events.map RetransmitEvent.time? → past ≤ nowNs) :
    Tracked timeoutNs maxAttempts (events ++ [e]) (step x e) := by
  obtain ⟨htimeout, hattempts⟩ := exec_config x.2 e
  have hnew : ∀ {nowNs : Int}, e.time? = some nowNs → some nowNs ∈ (events ++ [e]).map RetransmitEvent.time? := by
    intro nowNs he
    simp [he]
  have hold : ∀ {past : Int}, some past ∈ events.map RetransmitEvent.time? → some past ∈ (events ++ [e]).map RetransmitEvent.time? := by
    intro past hpast
    rw [map_append]
    exact mem_append_left _ hpast
  -- the clock does not go back, so a wrapped difference is no later than the difference
  have hdue : ∀ {nowNs : Int} {r : Request} {life : Life}, e.time? = some nowNs → x.2.timeoutNs ≤ i64 (nowNs - r.lastSentNs) →
      some r.lastSentNs ∈ events.map RetransmitEvent.time? → life.sends.getLast? = some r.lastSentNs →
      ∀ last ∈ life.sends.getLast?, timeoutNs ≤ nowNs - last := by
    intro nowNs r life he hwrapped hpast hlast last hmem
    rw [hlast, Option.mem_some_iff] at hmem
    subst hmem
    have hle := htime nowNs r.lastSentNs he hpast
    have hbelow := i64_le (x := nowNs - r.lastSentNs) (by omega)
    rw [h.timeout_eq] at hwrapped
    omega
  have hone : ∀ k, (∀ life ∈ lives k (RetransmitTracker.step x e).1, life.Good timeoutNs maxAttempts) ∧
      ∀ r, (RetransmitTracker.step x e).2.pending.lookup k = some r →
        ∃ life rest, lives k (RetransmitTracker.step x e).1 = life :: rest ∧ life.ends = [] ∧
          life.sends.getLast? = some r.lastSentNs ∧ (life.sends.length : Int) = r.attempts ∧
          some r.lastSentNs ∈ (events ++ [e]).map RetransmitEvent.time? := by
    intro k
    have hgood := h.good k
    dsimp only [RetransmitTracker.step]
    rw [lives_append]
    rcases exec_cases x.2 k e with ⟨hact, hlookup⟩ | ⟨nowNs, he, hact, hnone, hlookup⟩ |
      ⟨nowNs, r, he, hact, hr, htimedOut, hmore, hlookup⟩ | ⟨r, hact, hr, hlookup⟩ | ⟨nowNs, r, he, hact, hr, htimedOut, hspent, hlookup⟩
    · rw [hact, hlookup]
      refine ⟨hgood, fun r hr => ?_⟩
      obtain ⟨life, rest, hlives, hends, hlast, hlength, hpast⟩ := h.pending k r hr
      exact ⟨life, rest, hlives, hends, hlast, hlength, hold hpast⟩
    · rw [hact, hlookup]
      refine ⟨fun life hlife => ?_, fun r hr => ?_⟩
      · rcases mem_cons.mp hlife with rfl | hlife
        · exact Life.Good.fresh hmax nowNs
        · exact hgood life hlife
      · cases hr
        exact ⟨_, _, rfl, rfl, rfl, rfl, hnew he⟩
    · obtain ⟨life, rest, hlives, hends, hlast, hlength, hpast⟩ := h.pending k r hr
      rw [hact, hlookup, hlives]
      rw [hlives] at hgood
      refine ⟨fun life' hlife => ?_, fun r' hr' => ?_⟩
      · rcases mem_cons.mp hlife with rfl | hlife
        · refine (hgood life mem_cons_self).resend hends ?_ (hdue he htimedOut hpast hlast)
          rw [hlength, ← h.max_eq]
          exact hmore
        · exact hgood life' (mem_cons_of_mem _ hlife)
      · cases hr'
        refine ⟨_, _, rfl, hends, by simp, ?_, hnew he⟩
        rw [length_append, ← hlength]
        rfl
    · obtain ⟨life, rest, hlives, hends, -⟩ := h.pending k r hr
      rw [hact, hlookup, hlives]
      rw [hlives] at hgood
      refine ⟨fun life' hlife => ?_, nofun⟩
      rcases mem_cons.mp hlife with rfl | hlife
      · exact (hgood life mem_cons_self).fulfill hends
      · exact hgood life' (mem_cons_of_mem _ hlife)
    · obtain ⟨life, rest, hlives, hends, hlast, hlength, hpast⟩ := h.pending k r hr
      rw [hact, hlookup, hlives]
      rw [hlives] at hgood
      refine ⟨fun life' hlife => ?_, nofun⟩
      rcases mem_cons.mp hlife with rfl | hlife
      · refine (hgood life mem_cons_self).escalate hends ?_ (hdue he htimedOut hpast hlast)
        rw [hlength, ← h.max_eq]
        exact hspent
      · exact hgood life' (mem_cons_of_mem _ hlife)
  exact ⟨htimeout.trans h.timeout_eq, hattempts.trans h.max_eq, fun k => (hone k).1, fun k => (hone k).2⟩

theorem run_tracked {timeoutNs maxAttempts : Int} (hmax : 1 ≤ maxAttempts) (events : List RetransmitEvent)
    (htimes : (events.filterMap RetransmitEvent.time?).Pairwise (· ≤ ·)) :
    Tracked timeoutNs maxAttempts events (run timeoutNs maxAttempts events) := by
  induction events using List.reverseRecOn with
  | nil => exact ⟨rfl, rfl, fun k => nofun, nofun⟩
  | append_singleton events e ih =>
    rw [filterMap_append] at htimes
    obtain ⟨hbefore, -, hlast⟩ := pairwise_append.mp htimes
    unfold run
    rw [foldl_append]
    refine (ih hbefore).step hmax e fun nowNs past he hpast => ?_
    obtain ⟨e', he', hpast⟩ := mem_map.mp hpast
    exact hlast past (mem_filterMap.mpr ⟨e', he', hpast⟩) nowNs (by simp [he])

theorem run_counts (timeoutNs maxAttempts : Int) (events : List RetransmitEvent) :
    let x := run timeoutNs maxAttempts events
    x.2.fulfilled = countActs Act.isFulfilled x.1 ∧ x.2.escalated = countActs Act.isEscalated x.1 ∧
    x.2.fulfilled + x.2.escalated + x.2.outstanding = countActs Act.isRegistered x.1 := by
  induction events using List.reverseRecOn with
  | nil => exact ⟨rfl, rfl, rfl⟩
  | append_singleton events e ih =>
    unfold run at ih ⊢
    rw [foldl_append]
    generalize events.foldl step ([], { timeoutNs, maxAttempts }) = x at ih
    obtain ⟨hfulfilled, hescalated, hbalance⟩ := ih
    obtain ⟨h1, h2, h3⟩ := exec_counts x.2 e
    show (x.2.exec e).fulfilled = countActs _ (x.1 ++ x.2.acts e) ∧ (x.2.exec e).escalated = countActs _ (x.1 ++ x.2.acts e) ∧
      (x.2.exec e).fulfilled + (x.2.exec e).escalated + (x.2.exec e).outstanding = countActs _ (x.1 ++ x.2.acts e)
    rw [countActs_append, countActs_append, countActs_append]
    omega

/-- Over every run on a clock that does not go back: each registration stays in its budget, the counters tell how the registrations
    ended, and the number that a poll returns is that of what it sends again. -/
theorem registrations_bounded (timeoutNs maxAttempts : Int) (hmax : 1 ≤ maxAttempts) (events : List RetransmitEvent)
    (htimes : (events.filterMap RetransmitEvent.time?).Pairwise (· ≤ ·)) :
    let x := run timeoutNs maxAttempts events
    (∀ seq, ∀ life ∈ lives seq x.1, life.Good timeoutNs maxAttempts) ∧
    (x.2.fulfilled = countActs Act.isFulfilled x.1 ∧ x.2.escalated = countActs Act.isEscalated x.1 ∧
      x.2.fulfilled + x.2.escalated + x.2.outstanding = countActs Act.isRegistered x.1) ∧
    ∀ nowNs, (x.2.poll nowNs).1 = countActs Act.isResent (x.2.acts (.poll nowNs)) :=
  ⟨(run_tracked hmax events htimes).good, run_counts timeoutNs maxAttempts events, fun nowNs => (poll_counts _ nowNs).1⟩

def sampleRequests : List RetransmitEvent := [.request 7 0, .request 8 0, .poll 10, .onReceived 8, .poll 20, .request 7 25]

/-- 7 is sent twice and given up, 8 arrives after its second request, and 7 is registered again. -/
theorem registrations_bounded_sample :
    (∀ life ∈ lives 7 (run 10 2 sampleRequests).1, life.Good 10 2) ∧
    (run 10 2 sampleRequests).2.fulfilled + (run 10 2 sampleRequests).2.escalated + (run 10 2 sampleRequests).2.outstanding =
      countActs Act.isRegistered (run 10 2 sampleRequests).1 := by
  obtain ⟨hgood, ⟨-, -, hbalance⟩, -⟩ := registrations_bounded 10 2 (by decide) sampleRequests (by decide)
  exact ⟨hgood 7, hbalance⟩

end RetransmitTracker

end HftLab.Multicast
