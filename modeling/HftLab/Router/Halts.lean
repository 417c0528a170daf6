/-
  HftLab.Router.Halts — a venue that the operator disabled.

  `set_venue_active` and the health of a venue share one flag. A disable holds as long as nobody writes it back: a
  report of a success or of a latency does, whoever disabled the venue, and so does a second venue of the name that is
  added active. `halt_holds` is the run without these; `late_report_revives` is what one late execution report does.
-/

import HftLab.Router.Decisions

namespace HftLab.Router

open List

namespace SmartOrderRouter

variable {x x' : SmartOrderRouter} {name : String} {op : Op} {ops : List Op} {isBuy : Bool} {q : Int} {d : RouteDecision}

/-- No venue of the name is active. -/
def Halted (x : SmartOrderRouter) (name : String) : Prop := ∀ v ∈ x.venues, v.name = name → v.isActive = false

/-- At most the first venue of the name is active. -/
def SoleActive (x : SmartOrderRouter) (name : String) : Prop :=
  ∀ v ∈ x.venues.eraseIdx (x.placeOf name), v.name = name → v.isActive = false

/-- The call makes a venue of the name active, or adds one that is. -/
def revives (x : SmartOrderRouter) (name : String) : Op → Bool
  | .addVenue v => v.name = name && v.isActive && x.venues.length < MAX_VENUES
  | op => op.enables name && x.known name

/-- No call of the run does. -/
def undisturbed (name : String) : SmartOrderRouter → List Op → Bool
  | _, [] => true
  | x, op :: ops => !x.revives name op && undisturbed name (x.exec op) ops

/-- The decision neither names the venue nor leaves a record at one of the name. -/
def Avoids (x : SmartOrderRouter) (name : String) (d : RouteDecision) (x' : SmartOrderRouter) : Prop :=
  (d.valid = true → d.venue ≠ name) ∧ ∀ i, (x.venue i).name = name → x'.venue i = x.venue i

instance (x : SmartOrderRouter) (name : String) : Decidable (x.SoleActive name) :=
  inferInstanceAs (Decidable (∀ v ∈ x.venues.eraseIdx (x.placeOf name), v.name = name → v.isActive = false))

theorem setVenueActive_halted (h : x.SoleActive name) : (x.exec (.setVenueActive name false)).Halted name := by
  intro w hw hname
  obtain ⟨j, hj, rfl⟩ := getElem_of_mem hw
  simp only [exec, setVenueActive, onVenue, length_modify] at hj
  simp only [exec, setVenueActive, onVenue, getElem_modify] at hname ⊢
  split
  · rfl
  · rename_i hne
    rw [if_neg hne] at hname
    refine h _ ?_ hname
    exact mem_eraseIdx_iff_getElem.mpr ⟨j, hj, Ne.symm hne, rfl⟩

theorem exec_halted (h : x.Halted name) (hop : x.revives name op = false) : (x.exec op).Halted name := by
  intro w hw hname
  rcases exec_venue x op w hw with ⟨v, hv, hfollows⟩ | ⟨rfl, hroom⟩
  · have hvname : v.name = name := hfollows.name.symm.trans hname
    have hknown : x.known name := any_eq_true.mpr ⟨v, hv, decide_eq_true hvname⟩
    refine Bool.eq_false_iff.mpr fun hactive => ?_
    rcases hfollows.active hactive with ha | ha
    · rw [h v hv hvname] at ha
      cases ha
    · rw [hvname] at ha
      have hrevives : x.revives name op := by
        cases op with
        | addVenue w => cases ha
        | _ => exact Bool.and_eq_true_iff.mpr ⟨ha, hknown⟩
      rw [hop] at hrevives
      cases hrevives
  · simpa [revives, hname, hroom] using hop

theorem run_halted (h : x.Halted name) (hops : undisturbed name x ops) : (x.run ops).Halted name := by
  induction ops generalizing x with
  | nil => exact h
  | cons op ops ih =>
    simp only [undisturbed, Bool.and_eq_true, Bool.not_eq_true'] at hops
    exact ih (exec_halted h hops.1) hops.2

theorem Halted.avoids (h : x.Halted name) (hd : Decided x isBuy q d x') : Avoids x name d x' := by
  have hout : ∀ i ∈ x.candidates isBuy, (x.venue i).name ≠ name := by
    intro i hi hname
    obtain ⟨hlt, hactive, _⟩ := mem_candidates.mp hi
    rw [venue_eq_getElem hlt] at hname hactive
    rw [h _ (getElem_mem hlt) hname] at hactive
    cases hactive
  constructor
  · intro hvalid
    obtain ⟨i, hi, hvenue⟩ := hd.venue hvalid
    rw [hvenue]
    exact hout i hi
  · intro i hname
    exact hd.others i fun hi => hout i hi hname

/-- A venue that was disabled while it was the only active one of its name is avoided by every decision, of every
    strategy, as long as no report and no new venue makes it active. -/
theorem halt_holds (defaultStrategy : RoutingStrategy) (splitThreshold : Int) (before after : List Op) (name : String)
    (hsole : ((fresh defaultStrategy splitThreshold).run before).SoleActive name)
    (hafter : undisturbed name (((fresh defaultStrategy splitThreshold).run before).exec (.setVenueActive name false)) after = true)
    (side : String) (q : Int) (strat : RoutingStrategy) (t0 t1 : Int) :
    let x := (fresh defaultStrategy splitThreshold).run (before ++ .setVenueActive name false :: after)
    Avoids x name (x.routeOrder side q strat t0 t1).1 (x.routeOrder side q strat t0 t1).2 := by
  intro x
  have hrun : x = (((fresh defaultStrategy splitThreshold).run before).exec (.setVenueActive name false)).run after :=
    List.foldl_append ..
  have hhalted : x.Halted name := by
    rw [hrun]
    exact run_halted (setVenueActive_halted hsole) hafter
  exact hhalted.avoids (x.routeOrder_decided side q strat t0 t1)

/-- Two venues with a quote each. -/
def listing : List Op :=
  [.addVenue { name := "A" }, .addVenue { name := "B" }, .updateQuote "A" 99 100 500 500, .updateQuote "B" 99 101 500 500]

/-- Rejects and new quotes of a disabled venue, and an order that is split over what is left. -/
theorem halt_holds_small :
    let x := (fresh .bestPrice 500).run (listing ++ .setVenueActive "A" false :: [.recordReject "A", .updateQuote "A" 99 90 500 500])
    Avoids x "A" (x.routeOrder "BUY" 600 .split 0 7).1 (x.routeOrder "BUY" 600 .split 0 7).2 :=
  halt_holds .bestPrice 500 listing [.recordReject "A", .updateQuote "A" 99 90 500 500] "A" (by decide +kernel) (by decide +kernel)
    "BUY" 600 .split 0 7

/-- The success of an order that was sent before the disable arrives after it, and routing goes on. -/
theorem late_report_revives : ¬
    let x := (fresh .bestPrice 500).run (listing ++ .setVenueActive "A" false :: [.recordSuccess "A"])
    Avoids x "A" (x.routeOrder "BUY" 100 .bestPrice 0 7).1 (x.routeOrder "BUY" 100 .bestPrice 0 7).2 := by
  intro h
  exact h.1 (by decide +kernel) (by decide +kernel)

end SmartOrderRouter

end HftLab.Router
