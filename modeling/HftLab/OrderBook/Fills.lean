/-
  HftLab.OrderBook.Fills — executions: a taker against one maker (`execMaker`), and one order of an
  auction (`auctionTake`).

  `execMaker_cases`: an execution of `x` tops up a drained iceberg, completes the maker, or leaves
  it partially filled; each case gives the core it ends in. `Wf.execMaker`, `Wf.auctionTake`: both
  keep a book well formed, touching the taker and the maker only.
-/

import HftLab.OrderBook.Transitions

namespace HftLab.OrderBook

open Lib Function List

/-! ## The core after an execution -/

namespace Core

/-- `q` of the order in slot `i` of level `p` is executed against the one in slot `t`. -/
def fill (c : Core) (p : Int) (t i : Nat) (q : Int) : Core :=
  let c := c.setOrder i { c.pool i with filledQty := (c.pool i).filledQty + q }
  let c := c.setOrder t { c.pool t with filledQty := (c.pool t).filledQty + q }
  let c := c.setLevel p { c.levels p with totalQty := i32 ((c.levels p).totalQty - q) }
  c.setOrder i { c.pool i with displayedQty := (c.pool i).displayedQty - q }

/-- A filled maker leaves level `p`. -/
def complete (c : Core) (p : Int) (i : Nat) : Core :=
  let d := (c.setStatus i .filled).splice p i
  ((d.setLevel p (d.levels p).uncount).eraseId (c.pool i).id).freeOrder i

end Core

/-- The maker after `q` of it was executed. -/
def Order.filledBy (o : Order) (q : Int) : Order :=
  { o with filledQty := o.filledQty + q, displayedQty := o.displayedQty - q }

/-- The taker after `q` of it was executed. -/
def Order.tookBy (o : Order) (q : Int) : Order := { o with filledQty := o.filledQty + q }

theorem Order.filledBy_remaining (o : Order) (q : Int) : (o.filledBy q).remainingQty = o.remainingQty - q := by
  unfold Order.filledBy Order.remainingQty
  dsimp only
  omega

theorem tookBy_tookBy (o : Order) (x y : Int) : (o.tookBy x).tookBy y = o.tookBy (x + y) := by
  unfold Order.tookBy
  rw [Int.add_assoc]

theorem Order.tookBy_remaining (o : Order) (q : Int) : (o.tookBy q).remainingQty = o.remainingQty - q := by
  unfold Order.tookBy Order.remainingQty
  dsimp only
  omega

section

variable {V : Env} {c : Core} {F X : List Nat} {Q : Int → List Nat} {p q : Int} {t i : Nat}

theorem Layout.fill (h : Layout V c F Q X) : Layout V (c.fill p t i q) F Q X := by
  refine Layout.setOrder ?_ rfl rfl rfl rfl
  refine Layout.setLevel ?_ rfl rfl
  refine Layout.setOrder ?_ rfl rfl rfl rfl
  exact h.setOrder rfl rfl rfl rfl

theorem Core.fill_pool (h : i ≠ t) : (c.fill p t i q).pool =
    update (update c.pool t ((c.pool t).tookBy q)) i ((c.pool i).filledBy q) := by
  unfold Core.fill Core.setOrder Core.setLevel
  dsimp only
  rw [update_of_ne h, update_self, update_of_ne h.symm,
    update_comm h.symm, update_idem]
  rw [update_comm h]
  rfl

theorem Core.fill_body (h : i ≠ t) : (c.fill p t i q).body =
    update (update c.body t ((c.body t).tookBy q)) i ((c.body i).filledBy q) := by
  funext j
  unfold Core.body
  rw [Core.fill_pool h]
  by_cases e : j = i
  · subst e
    rw [update_self, update_self]
    rfl
  · rw [update_of_ne e, update_of_ne e]
    by_cases e' : j = t
    · subst e'
      rw [update_self, update_self]
      rfl
    · rw [update_of_ne e', update_of_ne e']

theorem Layout.complete (h : Layout V c F Q X) (hi : i ∈ Q p) :
    Layout V (c.complete p i) (i :: F) (update Q p ((Q p).erase i)) X := by
  have h1 := (h.setStatus i .filled).splice hi
  have h2 := h1.setLevel (l := (((c.setStatus i .filled).splice p i).levels p).uncount) rfl rfl
  have h3 := (h2.eraseId (c.pool i).id).freeOrder mem_cons_self
  rw [erase_cons_head] at h3
  exact h3

theorem Core.complete_body : (c.complete p i).body = update c.body i { c.body i with status := .filled } := by
  unfold Core.complete
  rw [Core.freeOrder_body]
  show ((c.setStatus i .filled).splice p i).body = _
  rw [Core.splice_body, Core.setStatus_body]

theorem Layout.refresh (h : Layout V c F Q X) (hi : i ∈ Q p) (shown : Int) :
    Layout V (c.refresh p i shown) F (update Q p ((Q p).erase i ++ [i])) X := by
  have h1 := h.setOrder (o := { c.pool i with displayedQty := shown }) rfl rfl rfl rfl
  unfold Core.refresh
  dsimp only
  split
  · rename_i ht
    rw [Core.setLevel_levels_self] at ht
    -- the last order of the queue stays where it is
    have hlast := (h.level p).last
    have htail : (c.levels p).tail = some i := ht
    rw [htail] at hlast
    have hsplit := dropLast_append_getLast? i hlast.symm
    have hn := (h.level p).nodup
    have he : (Q p).erase i = (Q p).dropLast := by
      rw [Layout.erase_split hsplit.symm hn, append_nil]
    rw [he, hsplit, update_eq_self]
    exact h1.setLevel rfl rfl
  · rename_i ht
    refine Layout.requeue ?_ hi ht
    exact h1.setLevel rfl rfl

theorem Core.refresh_body {shown : Int} :
    (c.refresh p i shown).body = update c.body i { c.body i with displayedQty := shown } := by
  unfold Core.refresh
  dsimp only
  split
  · exact Core.setOrder_body ..
  · rw [Core.requeue_body]
    exact Core.setOrder_body ..

theorem Core.refresh_rest (shown : Int) :
    (c.refresh p i shown).idIndex = c.idIndex ∧ (c.refresh p i shown).stopOrders = c.stopOrders ∧
      (c.refresh p i shown).pegOrders = c.pegOrders := by
  unfold Core.refresh
  dsimp only
  split
  · exact ⟨rfl, rfl, rfl⟩
  · exact ⟨rfl, rfl, rfl⟩

theorem Core.mem_refreshed {j : Nat} {r : Int} (hi : i ∈ Q p) :
    j ∈ update Q p ((Q p).erase i ++ [i]) r ↔ j ∈ Q r := by
  by_cases e : r = p
  · subst e
    rw [update_self, mem_append, mem_singleton]
    by_cases ej : j = i
    · subst ej
      exact ⟨fun _ => hi, fun _ => .inr rfl⟩
    · rw [mem_erase_of_ne ej]
      exact ⟨fun hm => hm.resolve_right ej, .inl⟩
  · rw [update_of_ne e]

end

/-! ## A maker and a taker -/

section

variable {V : Env} {b : Book} {p q : Int} {t i ts : Nat} {F : List Nat} {Q : Int → List Nat} {c : Core} {take : Int}

theorem Book.fillMaker_core : (b.fillMaker V p t i q ts).core = b.core.fill p t i q := rfl

theorem Book.completeMaker_core : (b.completeMaker p t i q).core = b.core.complete p i := rfl

theorem Book.refreshIceberg_core : (b.refreshIceberg p i).core =
    b.core.refresh p i (min (b.order i).remainingQty (b.icebergShow (b.order i).icebergDisplaySize).1) := rfl

/-- A size shown is positive. -/
theorem Book.icebergShow_pos (size : Int) : 0 < (b.icebergShow size).1 := by
  have h1 : 0 < (if 0 < size then size else 100) := by split <;> omega
  unfold Book.icebergShow
  dsimp only
  generalize (if 0 < size then size else 100) = s at *
  split
  · split
    · omega
    · exact h1
  · exact h1

/-- The three ways an execution of `q` can leave the maker. -/
inductive Settled (b : Book) (p : Int) (t i : Nat) (q : Int) (b' : Book) : Prop
  | refresh (shown : Int) : (b.order i).displayedQty = q → 0 < shown → shown ≤ (b.order i).remainingQty - q →
      (b.order i).type = .iceberg → b'.core = (b.core.fill p t i q).refresh p i shown → Settled b p t i q b'
  | complete : (b.order i).totalQty ≤ (b.order i).filledQty + q →
      b'.core = (b.core.fill p t i q).complete p i → Settled b p t i q b'
  | partial_ : (b.order i).filledQty + q < (b.order i).totalQty →
      ((b.order i).displayedQty = q → (b.order i).type ≠ .iceberg) →
      b'.core = (b.core.fill p t i q).setStatus i .partiallyFilled → Settled b p t i q b'

theorem Book.settled (h : i ≠ t) : Settled b p t i q ((b.fillMaker V p t i q ts).settleMaker p t i q) := by
  have hm : (b.fillMaker V p t i q ts).order i = (b.order i).filledBy q := by
    show (b.fillMaker V p t i q ts).core.pool i = _
    rw [Book.fillMaker_core, Core.fill_pool h, update_self]
    rfl
  unfold Book.settleMaker
  rw [hm]
  dsimp only
  split
  · rename_i hc
    obtain ⟨h1, h2, h3⟩ := hc
    have hpos := (b.fillMaker V p t i q ts).icebergShow_pos ((b.order i).filledBy q).icebergDisplaySize
    refine .refresh (min ((b.order i).filledBy q).remainingQty
      ((b.fillMaker V p t i q ts).icebergShow ((b.order i).filledBy q).icebergDisplaySize).1) ?_ ?_ ?_ h3 ?_
    · have : (b.order i).displayedQty - q = 0 := h1
      omega
    · omega
    · have := (b.order i).filledBy_remaining q
      omega
    · rw [Book.refreshIceberg_core, hm, Book.fillMaker_core]
  · rename_i hc
    split
    · rename_i hd
      refine .complete hd ?_
      rw [Book.completeMaker_core, Book.fillMaker_core]
    · rename_i hd
      have hd' : ¬ (b.order i).totalQty ≤ (b.order i).filledQty + q := hd
      refine .partial_ (by omega) ?_ ?_
      · intro h1 h2
        refine hc ⟨by show (b.order i).displayedQty - q = 0; omega, ?_, h2⟩
        show 0 < (b.order i).totalQty - ((b.order i).filledQty + q)
        omega
      · show (b.fillMaker V p t i q ts).core.setStatus i .partiallyFilled = _
        rw [Book.fillMaker_core]

variable {b' : Book}

/-- The taker stays in flight; the rest is up to the maker. -/
theorem Wf.exchange (h : Wf V b) (ht : t ∈ b.inFlight) (hne : i ≠ t) (hq0 : 0 ≤ q)
    (hqt : q ≤ (b.core.body t).totalQty - (b.core.body t).filledQty) (hl : Layout V b'.core F Q b'.inFlight)
    (hQ : ∀ j, j ≠ i → ∀ r, j ∈ Q r ↔ j ∈ b.core.queue V r) {o : Order}
    (hb : b'.core.body = update (update b.core.body t ((b.core.body t).tookBy q)) i o)
    (hst : b'.core.stopOrders = b.core.stopOrders) (hpg : b'.core.pegOrders = b.core.pegOrders) (hx : b'.inFlight = b.inFlight)
    (hf : ∀ k j, b'.core.find k = some j → b.core.find k = some j) (hpi : Placed V b' i) (hti : Tracked V b' i) :
    Lawful V [t, i] b b' := by
  have hbt : b'.core.body t = (b.core.body t).tookBy q := by
    rw [hb, update_of_ne hne.symm, update_self]
  have hfly := (h.placed t).flying ht
  have ht' : t ∈ b'.inFlight := hx.symm ▸ ht
  refine ⟨hl.moves ?_ ?_ ?_ ?_ ?_ ?_, ?_, ?_⟩
  · intro j hj
    simp only [mem_cons, not_mem_nil, or_false, not_or] at hj
    rw [hb, update_of_ne hj.2, update_of_ne hj.1]
  · intro j hj
    simp only [mem_cons, not_mem_nil, or_false, not_or] at hj
    exact hQ j hj.2
  · rw [hst]
    exact fun _ _ => Iff.rfl
  · rw [hx]
    exact fun _ _ => Iff.rfl
  · exact fun j _ k hk => hf k j hk
  · rw [hpg]
    exact fun _ _ hj => hj
  · intro j hj
    rcases mem_cons.mp hj with rfl | hj
    · refine ⟨?_, ?_, ?_, fun k hk => absurd (hf k j hk) (h.not_found_of_flying ht k)⟩
      · rintro ⟨r, hr⟩
        rw [hl.queue_eq] at hr
        exact absurd (mem_append_right _ ht') (hl.apart r j hr)
      · intro hs
        exact absurd rfl ((nodup_append.mp hl.nodup).2.2 j (mem_append_right _ hs) j ht')
      · rw [hbt]
        refine fun _ => ⟨hfly.status, ?_, ?_, hfly.shown, hfly.hidden⟩
        · have := hfly.filled
          show 0 ≤ (b.core.body j).filledQty + q
          omega
        · show (b.core.body j).filledQty + q ≤ (b.core.body j).totalQty
          omega
    · exact mem_singleton.mp hj ▸ hpi
  · intro j hj
    rcases mem_cons.mp hj with rfl | hj
    · intro ha
      rw [hbt, Order.not_active_of_new (o := (b.core.body j).tookBy q) hfly.status] at ha
      cases ha
    · exact mem_singleton.mp hj ▸ hti

theorem Wf.flying_ne_queued (h : Wf V b) (hi : i ∈ b.core.queue V p) (ht : t ∈ b.inFlight) : i ≠ t := by
  rintro rfl
  exact h.links.apart p i hi (mem_append_right _ ht)

/-- A queued order that is rewritten in place. -/
theorem Placed.of_queued (hl : Layout V b'.core F Q b'.inFlight) (hi : i ∈ Q p) (ho : (b'.core.body i).Resting)
    (hid : ∀ k, b'.core.find k = some i → (b'.core.body i).id = k) : Placed V b' i ∧ Tracked V b' i := by
  have hq : b'.core.Queued V i := ⟨p, by rw [hl.queue_eq]; exact hi⟩
  have hout := hl.apart p i hi
  exact ⟨⟨fun _ => ho, fun hs => absurd (by simp [hs]) hout, fun hs => absurd (by simp [hs]) hout,
    fun k hk => ⟨hid k hk, .inr hq⟩⟩, fun _ => hq⟩

theorem Placed.of_freed (hl : Layout V b'.core (i :: F) Q b'.inFlight) (hi : ∀ k, b'.core.find k ≠ some i)
    (ha : (b'.core.body i).isActive = false) : Placed V b' i ∧ Tracked V b' i := by
  obtain ⟨h1, h2, h3⟩ := hl.apart_of_free
  have hg : Gone V b' i := ⟨fun ⟨p, hp⟩ => h1 p (by rwa [hl.queue_eq] at hp), h2, h3, hi, ha⟩
  exact ⟨hg.placed, hg.tracked⟩

theorem Wf.settled (h : Wf V b) (hi : i ∈ b.core.queue V p) (ht : t ∈ b.inFlight) (hq0 : 0 ≤ q)
    (hqi : q ≤ (b.core.body i).displayedQty) (hqt : q ≤ (b.core.body t).totalQty - (b.core.body t).filledQty)
    (hs : Settled b p t i q b') (hx : b'.inFlight = b.inFlight) : Lawful V [t, i] b b' := by
  have hne := h.flying_ne_queued hi ht
  have hl := h.links.fill (p := p) (t := t) (i := i) (q := q)
  have hbody := Core.fill_body (c := b.core) (p := p) (q := q) hne
  have hr := h.resting hi
  obtain ⟨hact, hf0, hlt, hsh, hhid⟩ := hr
  unfold Order.hiddenQty at hhid
  cases hs with
  | refresh shown hD hpos hle htype hc =>
    obtain ⟨hidx, hst, hpg⟩ := Core.refresh_rest (c := b.core.fill p t i q) (p := p) (i := i) shown
    have hl' := hl.refresh hi shown
    rw [← hc, ← hx] at hl'
    have hb : b'.core.body = update (update b.core.body t ((b.core.body t).tookBy q)) i
        { (b.core.body i).filledBy q with displayedQty := shown } := by
      rw [hc, Core.refresh_body, hbody, update_self, update_idem]
    have hfind : ∀ k, b'.core.find k = b.core.find k := fun k => by
      rw [hc]
      simp only [Core.find, hidx]
      rfl
    have hrem : (b.order i).remainingQty = (b.core.body i).totalQty - (b.core.body i).filledQty := rfl
    have hplace := Placed.of_queued (i := i) hl' (by rw [update_self]; simp)
      (by
        rw [hb, update_self]
        refine ⟨hact, ?_, ?_, ?_, ?_⟩
        · show 0 ≤ (b.core.body i).filledQty + q
          omega
        · show (b.core.body i).filledQty + q < (b.core.body i).totalQty
          omega
        · show 0 ≤ shown
          omega
        · show 0 ≤ (b.core.body i).totalQty - ((b.core.body i).filledQty + q) - shown
          omega)
      (by
        intro k hk
        rw [hfind] at hk
        rw [hb, update_self]
        exact (h.found hk).1)
    exact h.exchange ht hne hq0 hqt hl' (fun j _ r => Core.mem_refreshed hi) hb (by rw [hc, hst]; rfl)
      (by rw [hc, hpg]; rfl) hx (fun k j hk => hfind k ▸ hk) hplace.1 hplace.2
  | complete hdone hc =>
    have hl' := hl.complete hi
    rw [← hc, ← hx] at hl'
    have hb : b'.core.body = update (update b.core.body t ((b.core.body t).tookBy q)) i
        { (b.core.body i).filledBy q with status := .filled } := by
      rw [hc, Core.complete_body, hbody, update_self, update_idem]
    have hid : ((b.core.fill p t i q).pool i).id = (b.core.body i).id := by
      rw [Core.fill_pool hne, update_self]
      rfl
    have hfind : ∀ k, b'.core.find k = (b.core.eraseId (b.core.body i).id).find k := by
      intro k
      rw [hc, ← hid]
      rfl
    have hplace := Placed.of_freed hl' (fun k hk => h.find_erase_ne rfl k (hfind k ▸ hk))
      (by
        rw [hb, update_self]
        rfl)
    exact h.exchange ht hne hq0 hqt hl' (fun j hj r => mem_update_erase hj) hb (by rw [hc]; rfl) (by rw [hc]; rfl) hx
      (fun k j hk => (find_of_erase (hfind k ▸ hk)).2) hplace.1 hplace.2
  | partial_ hlt' _ hc =>
    have hl' := hl.setStatus i .partiallyFilled
    rw [← hc, ← hx] at hl'
    have hb : b'.core.body = update (update b.core.body t ((b.core.body t).tookBy q)) i
        { (b.core.body i).filledBy q with status := .partiallyFilled } := by
      rw [hc, Core.setStatus_body, hbody, update_self, update_idem]
    have hfind : ∀ k, b'.core.find k = b.core.find k := fun k => by
      rw [hc]
      rfl
    have hplace := Placed.of_queued hl' hi
      (by
        rw [hb, update_self]
        refine ⟨rfl, ?_, hlt', ?_, ?_⟩
        · show 0 ≤ (b.core.body i).filledQty + q
          omega
        · show 0 ≤ (b.core.body i).displayedQty - q
          omega
        · show 0 ≤ (b.core.body i).totalQty - ((b.core.body i).filledQty + q) - ((b.core.body i).displayedQty - q)
          omega)
      (by
        intro k hk
        rw [hfind] at hk
        rw [hb, update_self]
        exact (h.found hk).1)
    exact h.exchange ht hne hq0 hqt hl' (fun _ _ _ => Iff.rfl) hb (by rw [hc]; rfl) (by rw [hc]; rfl) hx
      (fun k j hk => hfind k ▸ hk) hplace.1 hplace.2

/-- The book after `q` of the maker in slot `i` was executed. -/
def Book.executed (V : Env) (b : Book) (p : Int) (t ts i : Nat) (q : Int) : Book :=
  (b.fillMaker V p t i q ts).settleMaker p t i q

theorem Book.settleMaker_inFlight : (b.settleMaker p t i q).inFlight = b.inFlight := by
  unfold Book.settleMaker
  dsimp only
  split
  · rfl
  · split <;> rfl

theorem Book.executed_log : (b.executed V p t ts i q).log = .fill (b.order i) (b.order t) q :: b.log := by
  unfold Book.executed Book.settleMaker
  dsimp only
  split
  · rfl
  · split <;> rfl

theorem Book.execMaker_eq (h : i ≠ t) : b.execMaker V p t ts i q =
    .next (b.core.next i) (q - min q (b.core.body i).displayedQty)
      (b.executed V p t ts i (min q (b.core.body i).displayedQty)) := by
  have hn : ((b.fillMaker V p t i (min q (b.core.body i).displayedQty) ts).order i).nextAtLevel = b.core.next i := by
    show ((b.fillMaker V p t i (min q (b.core.body i).displayedQty) ts).core.pool i).nextAtLevel = _
    rw [Book.fillMaker_core, Core.fill_pool h, update_self]
    rfl
  rw [← hn]
  rfl

/-- An execution keeps the book well formed; it touches the taker and the maker. -/
theorem Wf.executed (h : Wf V b) (hi : i ∈ b.core.queue V p) (ht : t ∈ b.inFlight) (hq0 : 0 ≤ q)
    (hqi : q ≤ (b.core.body i).displayedQty) (hqt : q ≤ (b.core.body t).totalQty - (b.core.body t).filledQty) :
    Lawful V [t, i] b (b.executed V p t ts i q) :=
  h.settled hi ht hq0 hqi hqt (Book.settled (h.flying_ne_queued hi ht)) Book.settleMaker_inFlight

/-! ## An auction fill -/

/-- The two ways an auction fill can leave the order. -/
inductive Auctioned (b : Book) (p : Int) (i : Nat) (take : Int) (b' : Book) : Prop
  | complete : (b.order i).totalQty ≤ (b.order i).filledQty + take →
      b'.core = ((((b.core.auctionFill p i take).setStatus i .filled).unlinkFromLevel i).eraseId (b.order i).id).freeOrder i →
      Auctioned b p i take b'
  | partial_ : (b.order i).filledQty + take < (b.order i).totalQty →
      b'.core = (b.core.auctionFill p i take).setStatus i .partiallyFilled → Auctioned b p i take b'

theorem Book.auctioned (b : Book) (p clearing : Int) (i : Nat) (take : Int) (ts : Nat) :
    Auctioned b p i take (b.auctionTake p clearing i take ts) := by
  unfold Book.auctionTake
  by_cases hd : (b.order i).totalQty ≤ (b.order i).filledQty + take
  · rw [if_pos hd]
    exact .complete hd rfl
  · rw [if_neg hd]
    exact .partial_ (by omega) rfl

theorem Book.auctionTake_inFlight (b : Book) (p clearing : Int) (i : Nat) (take : Int) (ts : Nat) :
    (b.auctionTake p clearing i take ts).inFlight = b.inFlight := by
  unfold Book.auctionTake
  dsimp only
  split <;> rfl

theorem Book.auctionTake_log (b : Book) (p clearing : Int) (i : Nat) (take : Int) (ts : Nat) :
    (b.auctionTake p clearing i take ts).log = .auctionFill (b.order i) take :: b.log := by
  unfold Book.auctionTake
  dsimp only
  split <;> rfl

theorem Layout.auctionFill {X : List Nat} (h : Layout V c F Q X) (p : Int) (i : Nat) (take : Int) :
    Layout V (c.auctionFill p i take) F Q X := by
  refine Layout.setLevel ?_ rfl rfl
  exact h.setOrder rfl rfl rfl rfl

theorem Core.auctionFill_body :
    (c.auctionFill p i take).body = update c.body i ((c.body i).auctioned take) := Core.setOrder_body ..

/-- An auction fill keeps the book well formed; it touches one order. -/
theorem Wf.auctionTake (h : Wf V b) (hi : i ∈ b.core.queue V p) {clearing : Int} (hq0 : 0 ≤ take)
    (hqi : take ≤ (b.core.body i).totalQty - (b.core.body i).filledQty) : Lawful V [i] b (b.auctionTake p clearing i take ts) := by
  have hl := h.links.auctionFill p i take
  have hx := b.auctionTake_inFlight p clearing i take ts
  obtain ⟨hact, hf0, hlt, hsh, hhid⟩ := h.resting hi
  unfold Order.hiddenQty at hhid
  cases b.auctioned p clearing i take ts with
  | complete hdone hc =>
    have hl' := ((((hl.setStatus i .filled).unlink hi).eraseId (b.order i).id).freeOrder mem_cons_self)
    rw [← hc, erase_cons_head, ← hx] at hl'
    refine (hl'.release (fun j hj r => mem_update_erase hj) ?_ ?_ ?_ ?_ ?_ ?_).lawful
    · rw [hc]
      exact fun _ _ => Iff.rfl
    · rw [hx]
      exact fun _ _ => Iff.rfl
    · intro j hj
      rw [hc, Core.freeOrder_body]
      show (Core.unlinkFromLevel _ i).body j = _
      rw [Core.unlinkFromLevel_body, Core.setStatus_body, Core.auctionFill_body, update_of_ne hj,
        update_of_ne hj]
    · rw [hc, Core.freeOrder_body]
      show ((Core.unlinkFromLevel _ i).body i).isActive = _
      rw [Core.unlinkFromLevel_body, Core.setStatus_body, update_self]
      rfl
    · intro k j hk
      rw [hc] at hk
      have hk' : (b.core.eraseId (b.core.pool i).id).find k = some j := hk
      refine ⟨?_, (find_of_erase hk').2⟩
      rintro rfl
      exact h.find_erase_ne rfl k hk'
    · rw [hc]
      rfl
  | partial_ hlt' hc =>
    have hl' := hl.setStatus i .partiallyFilled
    rw [← hc] at hl'
    refine h.rewrite (o := { (b.core.body i).auctioned take with status := .partiallyFilled }) hl' (fun _ _ => Iff.rfl) ?_ rfl
      (by rw [hc]; rfl) (by rw [hc]; rfl) (by rw [hc]; rfl) hx ?_ ?_ ?_ (fun _ => ⟨p, hi⟩)
    · rw [hc, Core.setStatus_body, Core.auctionFill_body, update_self, update_idem]
    · refine fun _ => ⟨rfl, ?_, hlt', ?_, ?_⟩
      · show 0 ≤ (b.core.body i).filledQty + take
        omega
      · show 0 ≤ (b.core.body i).displayedQty - min take (b.core.body i).displayedQty
        omega
      · show 0 ≤ (b.core.body i).totalQty - ((b.core.body i).filledQty + take) -
          ((b.core.body i).displayedQty - min take (b.core.body i).displayedQty)
        omega
    · exact fun hs => absurd (by simp [hs]) (h.links.apart p i hi)
    · exact fun hs => absurd (by simp [hs]) (h.links.apart p i hi)

end

end HftLab.OrderBook
