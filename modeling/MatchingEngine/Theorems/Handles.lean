import MatchingEngine.Lemmas.Ends

/-!
# Handles

A handle that was returned for an order denotes that order exactly while it is live, as long as no slot was released so often that its
generation has wrapped; once the order is gone the handle is invalid for good. The free list and the live slots are all slots.
-/

namespace MatchingEngine

open Comp

namespace OrderBook

/-- The order with this serial number is live. -/
def LiveOrder (b : OrderBook) (serial : Nat) : Prop := ∃ s, b.arena.isLiveIndex s = true ∧ (b.arena.slots s).serial = serial

/-- An issued handle is accepted exactly while its order is live, and denotes that order. -/
structure Denotes (b : OrderBook) (x : Issue) : Prop where
  denotes : b.LiveOrder x.serial → b.arena.isLiveHandle x.handle = true ∧ (b.arena.slots x.handle.index).serial = x.serial ∧
    (b.arena.orderAt x.handle.index).id = x.id
  orderInfo : (b.orderInfo x.handle).isSome = true ↔ b.LiveOrder x.serial
  cancel : (b.cancel x.handle).1.rejectReason = .none ↔ b.LiveOrder x.serial
  cancel_invalid : (b.cancel x.handle).1.rejectReason = .invalidHandle ↔ ¬b.LiveOrder x.serial
  amend : ∀ n, (b.amendQuantity x.handle n).1.rejectReason = .invalidHandle ↔ ¬b.LiveOrder x.serial
  replace : ∀ price quantity size result, (b.replace x.handle price quantity size).Returns result →
    (result.1.rejectReason = .invalidHandle ↔ ¬(b.LiveOrder x.serial ∧ (b.arena.orderAt x.handle.index).dormant = false))

/-- The order with this serial number is live, and a dormant stop. -/
def DormantOrder (b : OrderBook) (serial : Nat) : Prop :=
  ∃ s, b.arena.isLiveIndex s = true ∧ (b.arena.slots s).serial = serial ∧ (b.arena.orderAt s).dormant = true

/-- What the live orders of an id have left. -/
def leftOf (b : OrderBook) (id : Nat) : Nat :=
  ((b.arena.liveSlots.filter fun s => (b.arena.orderAt s).id = id).map fun s => (b.arena.orderAt s).remaining).sum

/-- What there is of an id to trade in a call: what its orders have left, and what is submitted under the id, in the place of what that
replaces. -/
def offered (b : OrderBook) (op : Op) (out : Outcome) (id : Nat) : Nat :=
  if out.accepted = true ∧ b.submittedId op = id then b.leftOf id - b.replacedQuantity op + (Ladder.submittedQuantity op).getD 0
  else b.leftOf id

/-- What the reports of a call say that an id has bought and sold. -/
def tradedBy (id : Nat) (trades : List Trade) : Nat :=
  ((trades.filter fun t => t.buyId = id).map Trade.quantity).sum + ((trades.filter fun t => t.sellId = id).map Trade.quantity).sum

/-- A call that ends the order of a handle, by what it returned: it has cancelled or replaced the order, the orders of its id have traded all
there was of them, or the order was a stop, is no longer dormant and no activation reports its handle. -/
inductive Ended (b : OrderBook) (op : Op) (out : Outcome) (b' : OrderBook) (x : Issue) : Prop where
  | cancelled {r : CancelResult} (called : op = .cancel x.handle) (reply : out.reply = .cancel r) (ok : r.rejectReason = .none)
  | replaced {price : Int} {quantity size : Nat} {r : SubmitResult} (called : op = .replace x.handle price quantity size)
      (reply : out.reply = .submit r) (ok : r.rejectReason = .none)
  | filled (all : tradedBy x.id out.trades = b.offered op out x.id)
  | unrested (slept : b.DormantOrder x.serial) (woke : ¬b'.DormantOrder x.serial)
      (unreported : ∀ a ∈ b'.stopActivations, a.restingHandle ≠ x.handle)

/-- No other live order has the id of this one, and the operation submits none under it. -/
def Sole (b : OrderBook) (op : Op) (x : Issue) : Prop :=
  op.newId ≠ some x.id ∧ ∀ s, b.arena.isLiveIndex s = true → (b.arena.orderAt s).id = x.id → (b.arena.slots s).serial = x.serial

/-- Which orders are live after a call. An order that the call has ended is live in no later book. An activation without a resting handle
has ended its stop, which was dormant or is the one submitted. No order is new but the one a resting handle was returned for. And an order
stays live, as far as its id tells it from the others, that was not cancelled, not replaced, not filled and not activated without a
resting handle. -/
structure Settles (issued : List Issue) (b : OrderBook) (op : Op) (out : Outcome) (b' : OrderBook) : Prop where
  ended : ∀ x ∈ issued, b.Ended op out b' x → ∀ later, b'.Later later → ¬later.LiveOrder x.serial
  unrested : out.accepted = true → ∀ a ∈ b'.stopActivations, a.restingHandle = kInvalidHandle → ∃ n, ¬b'.LiveOrder n ∧
    ((∃ x ∈ issued, x.serial = n ∧ x.id = a.orderId ∧ b.DormantOrder n) ∨
      op.submitsStop = true ∧ b.submittedId op = a.orderId ∧ n = b.arena.accepted)
  born : ∀ n, b'.LiveOrder n → b.LiveOrder n ∨ ∃ x ∈ b.issues op out, x.serial = n
  stays : ∀ x ∈ issued, b.LiveOrder x.serial → b.Sole op x → op ≠ .cancel x.handle →
    (∀ price quantity size, op ≠ .replace x.handle price quantity size) → tradedBy x.id out.trades ≠ b.leftOf x.id →
    (∀ a ∈ b'.stopActivations, a.orderId = x.id → a.restingHandle ≠ kInvalidHandle) → b'.LiveOrder x.serial

end OrderBook

/-- The free list and the live slots are all slots, each once, and `size()` counts the live ones. -/
structure OrderArena.Partitioned (a : OrderArena) : Prop where
  slots : (a.liveSlots ++ a.freeSlots).Perm (List.range a.capacity)
  size : a.size = a.liveSlots.length

section Books

variable {cfg : BookConfig} {b b' : OrderBook} {L L' : Ladder}

/-- The tenants of the ladder are the live orders of the book. -/
theorem Rep.live_of_tenant (h : Rep True cfg b L) (hnone : L.held = none) {s n id : Nat} (ht : L.Tenant s n id) :
    b.arena.isLiveIndex s = true ∧ (b.arena.slots s).serial = n ∧ (b.arena.orderAt s).id = id := by
  obtain ⟨hlt, hp⟩ := ht.place h.wf
  refine ⟨(h.isLiveIndex hlt).mpr hp, ?_⟩
  rcases ht with ⟨side, i, hk⟩ | hk | hk
  · obtain ⟨e, he, heq⟩ := List.mem_map.mp hk
    simp only [Entry.key, Prod.mk.injEq] at heq
    obtain ⟨rfl, rfl, rfl⟩ := heq
    exact ⟨(h.entries side i e he).serial trivial, (h.entries side i e he).id⟩
  · obtain ⟨d, hd, heq⟩ := List.mem_map.mp hk
    simp only [Dormant.key, Prod.mk.injEq] at heq
    obtain ⟨rfl, rfl, rfl⟩ := heq
    exact ⟨(h.dormants d hd).serial trivial, (h.dormants d hd).id⟩
  · rw [hnone] at hk
    cases hk

/-- A live slot has a tenant. -/
theorem Rep.tenant_of_live (h : Rep True cfg b L) (hnone : L.held = none) {s : Nat} (hs : b.arena.isLiveIndex s = true) :
    ∃ id, L.Tenant s (b.arena.slots s).serial id := by
  have hlt : s < cfg.maxOrders := by
    rw [OrderArena.isLiveIndex, Bool.and_eq_true, decide_eq_true_eq, h.arena.capacity] at hs
    exact hs.1
  obtain ⟨n, id, ht⟩ := Ladder.tenant_of_place h.wf hnone hlt ((h.isLiveIndex hlt).mp hs)
  obtain ⟨-, hser, -⟩ := h.live_of_tenant hnone ht
  exact ⟨id, hser ▸ ht⟩

/-- An order is live as long as it is a tenant. -/
theorem Rep.liveOrder_iff (h : Rep True cfg b L) (hnone : L.held = none) {n : Nat} : b.LiveOrder n ↔ ∃ s id, L.Tenant s n id := by
  constructor
  · rintro ⟨s, hs, rfl⟩
    exact ⟨s, h.tenant_of_live hnone hs⟩
  · rintro ⟨s, id, ht⟩
    obtain ⟨h1, h2, -⟩ := h.live_of_tenant hnone ht
    exact ⟨s, h1, h2⟩

/-- The first checks never blame the handle. -/
theorem BookConfig.preflight_handle {raw : UInt8} {quantity : Nat} {reason : RejectReason}
    (h : cfg.preflight raw quantity = .error reason) : reason ≠ .invalidHandle := by
  unfold preflight at h
  split at h
  · cases h
    exact nofun
  · split at h
    · cases h
      exact nofun
    · split at h
      · cases h
        exact nofun
      · cases h

/-- The replacement of a resting order is never rejected for its handle. -/
theorem Ladder.replace_reason (hw : L.Wf cfg) {handle : Handle} {side : Side} {j : Nat} {e : Entry}
    (hloc : L.resolve cfg handle = some (.resting side j e)) {price : Int} {quantity size : Nat} {result : SubmitResult}
    {trades : List Trade} (h : (L.replace cfg handle price quantity size).Returns (result, trades, L')) :
    result.rejectReason ≠ .invalidHandle := by
  have hrefuse : ∀ {reason : RejectReason}, (L.reset.refuse reason quantity).Returns (result, trades, L') → reason ≠ .invalidHandle →
      result.rejectReason ≠ .invalidHandle := by
    intro reason hr hne
    rw [← (refuse_returns.mp hr).1]
    exact hne
  unfold replace at h
  dsimp only at h
  rw [show L.reset.resolve cfg handle = some (.resting side j e) from hloc] at h
  dsimp only at h
  split at h
  · rename_i reason hpre
    exact hrefuse h (BookConfig.preflight_handle hpre)
  · rename_i side' hpre
    obtain ⟨-, hpos, hle⟩ := BookConfig.preflight_ok hpre
    split at h
    · exact hrefuse h nofun
    · rename_i hsize
      split at h
      · exact hrefuse h nofun
      · rename_i hlevel
        obtain ⟨i, hi⟩ := Option.isSome_iff_exists.mp (by simpa [Option.isSome_iff_ne_none] using hlevel :
          (cfg.domain.indexOf price).isSome = true)
        obtain ⟨l, r, hq, -, -⟩ := resolve_resting hloc
        have hp := Passed.of_remove hw hq hpos hle hi
        rcases submitLimit_returns h with ⟨reason, -, rfl, -, -, hwhy⟩ | ⟨side', i', tif, -, -, -, hent⟩
        · rw [(hwhy side i .gtc (by omega) hp).1]
          exact nofun
        · obtain ⟨w, handle', L1, -, -, -, rfl⟩ := enter_returns hent
          exact nofun

/-- `order_info` finds what the arena finds. -/
theorem Rep.orderInfo_isSome (h : Rep True cfg b L) (hnone : L.held = none) (handle : Handle) :
    (b.orderInfo handle).isSome = true ↔ (b.arena.resolve handle).isSome = true := by
  rw [h.orderInfo hnone, Ladder.orderInfo]
  rcases h.resolve hnone handle with ⟨h1, h2⟩ | ⟨side, i, l, e, r, h2, hq, hh, h1⟩ | ⟨l, d, r, h2, hs, hh, h1⟩
  · rw [h1, h2]
    exact iff_of_false nofun nofun
  · rw [h1, h2]
    exact iff_of_true rfl rfl
  · rw [h1, h2]
    exact iff_of_true rfl rfl

/-- `replace` refuses a handle exactly if the arena finds nothing or a stop. -/
theorem Rep.replace_invalid (h : Rep True cfg b L) (hnone : L.held = none) {handle : Handle} {price : Int} {quantity size : Nat}
    {result : SubmitResult × List Trade × OrderBook} (hret : (b.replace handle price quantity size).Returns result) :
    result.1.rejectReason = .invalidHandle ↔ ∀ o, b.arena.resolve handle = some o → o.dormant = true := by
  obtain ⟨r, trades, b'⟩ := result
  obtain ⟨⟨r', trades', L'⟩, hL, hres, -⟩ := (h.replace hnone handle price quantity size).1 _ hret
  dsimp only at hres ⊢
  rw [hres]
  rcases h.resolve hnone handle with ⟨h1, h2⟩ | ⟨side, i, l, e, r, h2, hq, hh, h1⟩ | ⟨l, d, r, h2, hs, hh, h1⟩
  · rw [Ladder.replace, show L.reset.resolve cfg handle = none from h2] at hL
    obtain ⟨rfl, -, -⟩ := Ladder.refuse_returns.mp hL
    rw [h1]
    exact iff_of_true rfl nofun
  · have he : e ∈ L.queue side i := by rw [hq]; simp
    refine iff_of_false (Ladder.replace_reason h.wf h2 hL) fun hd => ?_
    have hdormant := hd _ h1
    rw [h.entry_dormant he] at hdormant
    cases hdormant
  · have hd : d ∈ L.stops := by rw [hs]; simp
    rw [Ladder.replace, show L.reset.resolve cfg handle = some (.dormant d) from h2] at hL
    obtain ⟨rfl, -, -⟩ := Ladder.refuse_returns.mp hL
    refine iff_of_true rfl fun o ho => ?_
    rw [← Option.some.inj (h1.symm.trans ho)]
    exact h.stop_dormant hd

/-- What a tracked handle is to the book. -/
theorem Rep.denotes (h : Rep True cfg b L) (hnone : L.held = none) {x : OrderBook.Issue} (ht : L.Tracks cfg x.handle x.serial x.id)
    (hr : L.releases x.handle.index < 2 ^ 32 - 1) : b.Denotes x := by
  obtain ⟨hiff, hsame⟩ := ht.live_iff h.wf hr
  have hlive : b.LiveOrder x.serial ↔
      x.handle.generation = generationOf (L.releases x.handle.index) ∧ L.place x.handle.index ≠ .free := by
    rw [h.liveOrder_iff hnone, hiff]
  have hhandle : b.arena.isLiveHandle x.handle = true ↔ b.LiveOrder x.serial := by
    rw [h.isLiveHandle, hlive]
    exact ⟨fun hh => ⟨hh.1.2, hh.2⟩, fun hh => ⟨⟨ht.2.1, hh.1⟩, hh.2⟩⟩
  have hdenotes : b.LiveOrder x.serial → b.arena.isLiveHandle x.handle = true ∧
      (b.arena.slots x.handle.index).serial = x.serial ∧ (b.arena.orderAt x.handle.index).id = x.id := by
    intro hl
    obtain ⟨-, h2, h3⟩ := h.live_of_tenant hnone (hsame (hlive.mp hl))
    exact ⟨hhandle.mpr hl, h2, h3⟩
  have hresolve : b.arena.resolve x.handle = if b.arena.isLiveHandle x.handle then some (b.arena.orderAt x.handle.index) else none := rfl
  have hnot : (hl : ¬b.LiveOrder x.serial) → b.arena.resolve x.handle = none := fun hl => by
    rw [hresolve, if_neg (mt hhandle.mp hl)]
  have hsome : b.LiveOrder x.serial → b.arena.resolve x.handle = some (b.arena.orderAt x.handle.index) := fun hl => by
    rw [hresolve, if_pos (hhandle.mpr hl)]
  have hcancel : b.LiveOrder x.serial → (b.cancel x.handle).1.rejectReason = .none := fun hl => by
    rw [OrderBook.cancel, hsome hl]
  have hcancel' : ¬b.LiveOrder x.serial → (b.cancel x.handle).1.rejectReason = .invalidHandle := fun hl => by
    rw [OrderBook.cancel, hnot hl]
  refine ⟨hdenotes, (h.orderInfo_isSome hnone x.handle).trans ?_, ?_, ?_, fun n => ?_,
    fun price quantity size result hret => (h.replace_invalid hnone hret).trans ?_⟩
  · by_cases hl : b.LiveOrder x.serial
    · rw [hsome hl]
      exact iff_of_true rfl hl
    · rw [hnot hl]
      exact iff_of_false nofun hl
  · refine ⟨fun hc => ?_, hcancel⟩
    by_contra hl
    rw [hcancel' hl] at hc
    cases hc
  · refine ⟨fun hc hl => ?_, hcancel'⟩
    rw [hcancel hl] at hc
    cases hc
  · refine ⟨fun hc hl => ?_, fun hl => by rw [OrderBook.amendQuantity, hnot hl]⟩
    rw [OrderBook.amendQuantity, hsome hl] at hc
    dsimp only at hc
    repeat' split at hc
    all_goals cases hc
  · by_cases hl : b.LiveOrder x.serial
    · rw [hsome hl]
      refine ⟨fun hd hc => ?_, fun hc o ho => ?_⟩
      · have hdormant := (hd _ rfl).symm.trans hc.2
        cases hdormant
      · rw [← Option.some.inj ho]
        exact Bool.of_not_eq_false fun hd => hc ⟨hl, hd⟩
    · rw [hnot hl]
      exact iff_of_true nofun fun hc => hl hc.1

/-- The free list and the live slots of a book. -/
theorem Rep.partitioned (h : Rep True cfg b L) (hnone : L.held = none) : b.arena.Partitioned := by
  have hinvalid : kInvalidIndex ∉ L.free := fun hm => by
    have h1 := (h.wf.place_of_free hm).1
    have h2 := cfg.maxOrders_lt
    unfold kInvalidIndex at h1
    omega
  have hfree : b.arena.freeSlots = L.free := by
    rw [OrderArena.freeSlots, h.arena.freeHead]
    refine Links.walk_eq hinvalid (fun l s r hf => ?_) ?_
    · rw [h.arena.freeNext s (h.wf.place_of_free (s := s) (by rw [hf]; simp)).1]
      exact h.wf.chain l s r hf
    · have := h.arena.size
      rw [h.arena.capacity]
      omega
  have hlive := h.liveSlots_perm hnone
  have hperm := h.wf.liveSlots_perm hnone
  refine ⟨?_, ?_⟩
  · rw [hfree, h.arena.capacity]
    exact (hlive.append_right _).trans hperm
  · have h1 := hperm.length_eq
    have h2 := hlive.length_eq
    have h3 := h.arena.size
    rw [List.length_append, List.length_range] at h1
    omega

/-! ## Over runs -/

/-- The two sides issue the same handles. -/
theorem Rep.issues (h : Rep True cfg b L) {op : Op} {out : Outcome} (he : Ladder.Effect cfg L op out L') :
    b.issues op out = L.issues cfg op out := by
  have hacc := h.arena.accepted trivial
  cases hout : out.reply with
  | cancel r => simp only [OrderBook.issues, Ladder.issues, hout]
  | amend r => simp only [OrderBook.issues, Ladder.issues, hout]
  | auction r => simp only [OrderBook.issues, Ladder.issues, hout]
  | submit r =>
    simp only [OrderBook.issues, Ladder.issues, hout, hacc]
    by_cases hinv : r.restingHandle = kInvalidHandle
    · rw [if_pos hinv, if_pos hinv]
    · rw [if_neg hinv, if_neg hinv]
      cases op with
      | replace handle price quantity size =>
        have hid : (b.arena.orderAt handle.index).id = L.submittedId cfg (.replace handle price quantity size) := by
          cases he with
          | refused _ _ _ =>
            cases hout
            exact absurd rfl hinv
          | lost _ _ _ _ _ _ _ _ =>
            cases hout
            exact absurd rfl hinv
          | slept hsub _ _ _ _ _ _ _ => cases hsub
          | fired hsub _ _ _ _ _ _ _ _ _ => cases hsub
          | entered ha _ _ _ => exact (h.submittedId ha).trans ha.id_eq
        exact congrArg (fun id => [(⟨r.restingHandle, L.accepted, id⟩ : OrderBook.Issue)]) hid
      | _ => rfl

/-- What an operation issues is the handle of what rests. -/
theorem Ladder.mem_issues {op : Op} {out : Outcome} {x : OrderBook.Issue} (hx : x ∈ L.issues cfg op out) :
    ∃ r trades, out = ⟨.submit r, trades⟩ ∧ r.restingHandle ≠ kInvalidHandle ∧
      x = ⟨r.restingHandle, L.accepted, L.submittedId cfg op⟩ := by
  obtain ⟨reply, trades⟩ := out
  cases reply with
  | submit r =>
    simp only [issues] at hx
    by_cases hinv : r.restingHandle = kInvalidHandle
    · rw [if_pos hinv] at hx
      cases hx
    · rw [if_neg hinv, List.mem_singleton] at hx
      exact ⟨r, trades, rfl, hinv, hx⟩
  | cancel r => cases hx
  | amend r => cases hx
  | auction r => cases hx

/-- What is known of a book and the handles issued on the way to it. -/
structure Followed (cfg : BookConfig) (issued : List OrderBook.Issue) (b : OrderBook) (L : Ladder) : Prop where
  repr : Rep True cfg b L
  held : L.held = none
  numbered : L.Numbered
  tracks : ∀ x ∈ issued, L.Tracks cfg x.handle x.serial x.id

theorem Followed.apply {issued : List OrderBook.Issue} (h : Followed cfg issued b L) {op : Op} {out : Outcome}
    (hr : (b.apply op).Returns (out, b')) :
    ∃ L', Followed cfg issued b' L' ∧ Ladder.Effect cfg L op out L' ∧ Ladder.Evolves L L' := by
  obtain ⟨⟨out', L'⟩, hL, rfl, hrepr', hnone'⟩ := (h.repr.apply h.held op).1 _ hr
  have he := Ladder.apply_effect h.repr.wf hL
  have hch := he.changes h.repr.wf h.held
  exact ⟨L', ⟨hrepr', hnone', hch.numbered h.numbered, fun x hx => (h.tracks x hx).evolves h.numbered hch.evolves⟩, he, hch.evolves⟩

theorem OrderBook.History.followed {state : TradingState} {issued : List OrderBook.Issue}
    (h : OrderBook.History cfg state issued b) : ∃ L, Followed cfg issued b L ∧ Ladder.StopsIssued issued L := by
  induction h with
  | create hc =>
    exact ⟨_, ⟨repr_create hc, rfl, (Ladder.Run.create).numbered, nofun⟩, nofun, nofun⟩
  | apply _ hr ih =>
    obtain ⟨L, hf, hs⟩ := ih
    obtain ⟨L', hf', he, -⟩ := hf.apply hr
    have hissues := hf.repr.issues he
    refine ⟨L', ⟨hf'.repr, hf'.held, hf'.numbered, fun x hx => ?_⟩, ?_⟩
    · rcases List.mem_append.mp hx with hx | hx
      · exact hf'.tracks x hx
      · rw [hissues] at hx
        obtain ⟨r, trades, rfl, hne, rfl⟩ := Ladder.mem_issues hx
        exact he.tracks hf.repr.wf hf.held hf.numbered hne
    · rw [hissues]
      exact he.stopsIssued hf.repr.wf hf.held hf.numbered hs
  | check _ hr ih =>
    obtain ⟨L, hf, hs⟩ := ih
    exact ⟨L, ⟨hf.repr.of_checkInvariants hr, hf.held, hf.numbered, hf.tracks⟩, hs⟩

/-- What comes after a followed book is followed. -/
theorem Followed.later {issued : List OrderBook.Issue} (h : Followed cfg issued b L) (hl : b.Later b') :
    ∃ L', Followed cfg issued b' L' ∧ (∀ x ∈ issued, (∀ s id, ¬L.Tenant s x.serial id) → ∀ s id, ¬L'.Tenant s x.serial id) := by
  induction hl with
  | refl => exact ⟨L, h, fun _ _ => id⟩
  | apply _ hr ih =>
    obtain ⟨L1, hf1, hgone⟩ := ih
    obtain ⟨L2, hf2, -, hev⟩ := hf1.apply hr
    refine ⟨L2, hf2, fun x hx hdead s id ht => ?_⟩
    rcases hev.back ht with ⟨ht, -⟩ | hle
    · exact hgone x hx hdead s id ht
    · have := (hf1.tracks x hx).1
      omega
  | check _ hr ih =>
    obtain ⟨L1, hf1, hgone⟩ := ih
    exact ⟨L1, ⟨hf1.repr.of_checkInvariants hr, hf1.held, hf1.numbered, hf1.tracks⟩, hgone⟩

/-! ## The ends of orders -/

section Ends

open Ladder

/-- What an id has traded is the weight of its trades. -/
theorem OrderBook.tradedBy_eq (id : Nat) (trades : List Trade) : tradedBy id trades = tradesWeight (unitOf id) trades := by
  induction trades with
  | nil => rfl
  | cons t trades ih =>
    have hcons : tradesWeight (unitOf id) (t :: trades) =
        (unitOf id t.buyId + unitOf id t.sellId) * t.quantity + tradesWeight (unitOf id) trades := rfl
    rw [hcons, ← ih]
    unfold tradedBy unitOf
    rw [List.filter_cons, List.filter_cons]
    by_cases hb : t.buyId = id <;> by_cases hs : t.sellId = id <;> simp [hb, hs] <;> omega

/-- What is left of an id is its weight. -/
theorem Rep.leftOf (h : Rep True cfg b L) (hnone : L.held = none) (id : Nat) : b.leftOf id = L.weigh cfg (perUnit (unitOf id)) := by
  have hone : ∀ s, perUnit (unitOf id) (b.arena.orderAt s).id (b.arena.orderAt s).remaining =
      if (b.arena.orderAt s).id = id then (b.arena.orderAt s).remaining else 0 := fun s => by
    unfold perUnit unitOf
    split
    · exact Nat.one_mul _
    · exact Nat.zero_mul _
  rw [← h.sum_liveSlots hnone, List.map_congr_left fun s _ => hone s, List.sum_map_ite]
  simp [OrderBook.leftOf]

/-- A dormant order is a stop. -/
theorem Rep.dormantOrder_iff (h : Rep True cfg b L) (hnone : L.held = none) {n : Nat} :
    b.DormantOrder n ↔ ∃ s id, (s, n, id) ∈ L.stops.map Dormant.key := by
  constructor
  · rintro ⟨s, hs, rfl, hd⟩
    obtain ⟨id, ⟨side, i, hk⟩ | hk | hk⟩ := h.tenant_of_live hnone hs
    · obtain ⟨e, he, heq⟩ := List.mem_map.mp hk
      obtain rfl : e.slot = s := congrArg Prod.fst heq
      rw [h.entry_dormant he] at hd
      cases hd
    · exact ⟨s, id, hk⟩
    · rw [hnone] at hk
      cases hk
  · rintro ⟨s, id, hk⟩
    obtain ⟨h1, h2, -⟩ := h.live_of_tenant hnone (Or.inr (Or.inl hk))
    obtain ⟨d, hd, heq⟩ := List.mem_map.mp hk
    obtain rfl : d.slot = s := congrArg Prod.fst heq
    exact ⟨d.slot, h1, h2, h.stop_dormant hd⟩

/-- Two tenants under one serial number are one. -/
theorem Followed.tenant_eq {issued : List OrderBook.Issue} (h : Followed cfg issued b L) {s s' n id id' : Nat} (ht : L.Tenant s n id)
    (ht' : L.Tenant s' n id') : s = s' ∧ id = id' := by
  obtain rfl := h.numbered.inj ht ht'
  exact ⟨rfl, (h.repr.live_of_tenant h.held ht).2.2.symm.trans (h.repr.live_of_tenant h.held ht').2.2⟩

/-- A live order has the slot of its handle. -/
theorem Followed.tenant {issued : List OrderBook.Issue} (h : Followed cfg issued b L) {x : OrderBook.Issue} (hx : x ∈ issued)
    (hlive : b.LiveOrder x.serial) : L.Tenant x.handle.index x.serial x.id ∧ x.handle = L.handleAt x.handle.index := by
  obtain ⟨s, id, ht⟩ := (h.repr.liveOrder_iff h.held).mp hlive
  obtain ⟨-, -, ⟨ht', hg⟩ | ⟨hgone, -⟩⟩ := h.tracks x hx
  · exact ⟨ht', by rw [handleAt, ← hg]⟩
  · exact absurd ht (hgone s id)

/-- An order whose slot was released in a call is live no more. -/
theorem Followed.released {issued : List OrderBook.Issue} (h : Followed cfg issued b L) (h' : Followed cfg issued b' L')
    (he : Evolves L L') {x : OrderBook.Issue} (hx : x ∈ issued) (hr : L.releases x.handle.index < L'.releases x.handle.index) :
    ¬b'.LiveOrder x.serial := by
  rw [h'.repr.liveOrder_iff h'.held]
  rintro ⟨s, id, ht⟩
  exact (h.tracks x hx).gone h.numbered he hr s id ht

section Calls

variable {issued : List OrderBook.Issue} {op : Op} {out : Outcome} {x : OrderBook.Issue}

/-- What is live of an id after a call is what there was to trade and has not traded. -/
theorem Followed.weigh_eq_zero (hfifo : cfg.allocationMode = .fifo) (h : Followed cfg issued b L) (he : Effect cfg L op out L') {id : Nat}
    (hall : OrderBook.tradedBy id out.trades = b.offered op out id) : L'.weigh cfg (perUnit (unitOf id)) = 0 := by
  rw [OrderBook.tradedBy_eq, OrderBook.offered, h.repr.leftOf h.held] at hall
  by_cases hok : out.accepted = true
  · obtain ⟨L₀, quantity, own, hquantity, henters⟩ := h.repr.enters hfifo h.held he hok
    have hbefore := henters.before (perUnit (unitOf id)) perUnit_zero
    have hweight := henters.weight (unitOf id)
    by_cases hid : b.submittedId op = id
    · rw [if_pos ⟨hok, hid⟩, hquantity, Option.getD_some] at hall
      rw [perUnit, hid, unitOf_self] at hbefore
      rw [hid, unitOf_self] at hweight
      omega
    · rw [if_neg fun hc => hid hc.2] at hall
      rw [perUnit, unitOf_of_ne hid] at hbefore
      rw [unitOf_of_ne hid] at hweight
      omega
  · rw [if_neg fun hc => hok hc.1] at hall
    have := (he.unentered h.repr.wf hok).weight (unitOf id)
    omega

/-- An order that a call has ended is live no more. -/
theorem Followed.ended (hfifo : cfg.allocationMode = .fifo) (h : Followed cfg issued b L) (h' : Followed cfg issued b' L')
    (he : Effect cfg L op out L') (hx : x ∈ issued) (hend : b.Ended op out b' x) : ¬b'.LiveOrder x.serial := by
  have hev := (he.changes h.repr.wf h.held).evolves
  obtain ⟨reply, trades⟩ := out
  cases hend with
  | cancelled called hreply ok =>
    subst called hreply
    exact h.released h' hev hx (he.cancel_released h.repr.wf ok)
  | replaced called hreply ok =>
    subst called hreply
    exact h.released h' hev hx (he.replace_released h.repr.wf h.held ok)
  | filled all =>
    intro hlive
    have := (h'.tenant hx hlive).1.weigh_pos h'.repr.wf
    rw [h.weigh_eq_zero hfifo he all] at this
    omega
  | unrested slept woke unreported =>
    obtain ⟨s, id, hk⟩ := (h.repr.dormantOrder_iff h.held).mp slept
    have ht : L.Tenant s x.serial id := Or.inr (Or.inl hk)
    obtain ⟨ht₀, hhandle⟩ := h.tenant hx ((h.repr.liveOrder_iff h.held).mpr ⟨s, id, ht⟩)
    obtain ⟨rfl, rfl⟩ := h.tenant_eq ht ht₀
    obtain ⟨d, hd, heq⟩ := List.mem_map.mp hk
    have hslot : d.slot = x.handle.index := congrArg Prod.fst heq
    rcases he.fate h.repr.wf h.held h.numbered hd with hk' | ⟨a, ha, hreports⟩ | hlt
    · exact absurd ((h'.repr.dormantOrder_iff h'.held).mpr ⟨_, _, heq ▸ hk'⟩) woke
    · rw [hslot, ← hhandle] at hreports
      exact absurd hreports (unreported a (h'.repr.activations ▸ ha))
    · exact h.released h' hev hx (hslot ▸ hlt)

/-- No order is live after a call that was not before, but the one a handle was returned for. -/
theorem Followed.born (h : Followed cfg issued b L) (h' : Followed cfg issued b' L') (he : Effect cfg L op out L') {n : Nat}
    (hlive : b'.LiveOrder n) : b.LiveOrder n ∨ ∃ x ∈ b.issues op out, x.serial = n := by
  obtain ⟨s, id, ht⟩ := (h'.repr.liveOrder_iff h'.held).mp hlive
  rcases he.born h.repr.wf h.held h.numbered ht with ht₀ | ⟨rfl, r, trades, rfl, hne⟩
  · exact Or.inl ((h.repr.liveOrder_iff h.held).mpr ⟨s, id, ht₀⟩)
  · rw [h.repr.issues he]
    simp only [Ladder.issues]
    rw [if_neg hne]
    exact Or.inr ⟨_, List.mem_singleton.mpr rfl, rfl⟩

/-- An activation without a resting handle has ended its stop. -/
theorem Followed.unrested (h : Followed cfg issued b L) (h' : Followed cfg issued b' L') (hi : StopsIssued issued L)
    (he : Effect cfg L op out L') (hok : out.accepted = true) {a : StopActivation} (ha : a ∈ b'.stopActivations)
    (hinv : a.restingHandle = kInvalidHandle) : ∃ n, ¬b'.LiveOrder n ∧
      ((∃ x ∈ issued, x.serial = n ∧ x.id = a.orderId ∧ b.DormantOrder n) ∨
        op.submitsStop = true ∧ b.submittedId op = a.orderId ∧ n = b.arena.accepted) := by
  rw [h'.repr.activations] at ha
  rcases he.unrested h.repr.wf h.held h.numbered hok ha hinv with ⟨d, hd, hid, hlt⟩ | ⟨hstop, hid, hgone⟩
  · have hx := hi.stops d hd
    refine ⟨d.serial, h.released h' (he.changes h.repr.wf h.held).evolves hx hlt, Or.inl ⟨_, hx, rfl, hid, ?_⟩⟩
    exact (h.repr.dormantOrder_iff h.held).mpr ⟨d.slot, d.id, List.mem_map.mpr ⟨d, hd, rfl⟩⟩
  · refine ⟨b.arena.accepted, fun hlive => ?_, Or.inr ⟨hstop, ?_, rfl⟩⟩
    · obtain ⟨s, id, ht⟩ := (h'.repr.liveOrder_iff h'.held).mp hlive
      rw [h.repr.arena.accepted trivial] at ht
      exact hgone s id ht
    · rw [← hid]
      obtain ⟨arguments, hargs⟩ := Option.isSome_iff_exists.mp hstop
      obtain ⟨stop, raw, trigger, limit, quantity, size⟩ := arguments
      rw [submittedId_of_stop hargs]
      exact (submitsStop_of_arguments hargs).2.2.2.1

/-- An accepted submission is under another id than an order that is alone in its id and is not replaced. -/
theorem Followed.submittedId_ne (h : Followed cfg issued b L) (he : Effect cfg L op out L') (hok : out.accepted = true)
    {quantity : Nat} (hquantity : submittedQuantity op = some quantity) (hx : x ∈ issued) (hlive : b.LiveOrder x.serial)
    (hsole : b.Sole op x) (hreplace : ∀ price quantity size, op ≠ .replace x.handle price quantity size) : b.submittedId op ≠ x.id := by
  obtain ⟨hnew, hsole⟩ := hsole
  obtain ⟨ht, hhandle⟩ := h.tenant hx hlive
  intro hid
  cases op with
  | replace handle price quantity size =>
    cases he with
    | refused _ hne _ => exact hne (of_decide_eq_true hok)
    | lost _ _ _ _ _ _ _ _ => cases hok
    | slept hsub _ _ _ _ _ _ _ => cases hsub
    | fired hsub _ _ _ _ _ _ _ _ _ => cases hsub
    | entered ha _ _ _ =>
      cases ha with
      | @replace _ _ _ _ j _ side _ _ e _ hloc _ _ _ =>
        obtain ⟨l, r, hq, rfl, -⟩ := resolve_resting hloc
        have hte : L.Tenant e.slot e.serial e.id := Or.inl ⟨side, j, List.mem_map.mpr ⟨e, by rw [hq]; simp, rfl⟩⟩
        obtain ⟨hl, hser, -⟩ := h.repr.live_of_tenant h.held hte
        have hserial : e.serial = x.serial := hser.symm.trans (hsole e.slot hl hid)
        have hslot := (h.tenant_eq (hserial ▸ hte) ht).1
        exact hreplace price quantity size (by rw [hhandle, hslot])
  | cancel handle => cases hquantity
  | amendQuantity handle n => cases hquantity
  | uncrossOpeningAuction size => cases hquantity
  | _ => exact hnew (congrArg some hid)

/-- An order stays live that is alone in its id, unless it is cancelled, replaced, filled or activated without a resting handle. -/
theorem Followed.stays (hfifo : cfg.allocationMode = .fifo) (h : Followed cfg issued b L) (h' : Followed cfg issued b' L')
    (he : Effect cfg L op out L') (hx : x ∈ issued) (hlive : b.LiveOrder x.serial) (hsole : b.Sole op x)
    (hcancel : op ≠ .cancel x.handle) (hreplace : ∀ price quantity size, op ≠ .replace x.handle price quantity size)
    (hfill : OrderBook.tradedBy x.id out.trades ≠ b.leftOf x.id)
    (hacts : ∀ a ∈ b'.stopActivations, a.orderId = x.id → a.restingHandle ≠ kInvalidHandle) : b'.LiveOrder x.serial := by
  obtain ⟨ht, hhandle⟩ := h.tenant hx hlive
  have hch := he.changes h.repr.wf h.held
  rw [OrderBook.tradedBy_eq, h.repr.leftOf h.held] at hfill
  have hsame {s n : Nat} (ht₀ : L.Tenant s n x.id) (ht' : L'.Tenant s n x.id) : b'.LiveOrder x.serial := by
    obtain ⟨hl, hser, hid⟩ := h.repr.live_of_tenant h.held ht₀
    rw [← hsole.2 s hl hid, hser]
    exact (h'.repr.liveOrder_iff h'.held).mpr ⟨s, _, ht'⟩
  by_cases hok : out.accepted = true
  · obtain ⟨L₀, quantity, own, hquantity, henters⟩ := h.repr.enters hfifo h.held he hok
    have hne := h.submittedId_ne he hok hquantity hx hlive hsole hreplace
    have hbefore := henters.before (perUnit (unitOf x.id)) perUnit_zero
    have hweight := henters.weight (unitOf x.id)
    rw [perUnit, unitOf_of_ne hne, Nat.zero_mul, Nat.add_zero] at hbefore
    rw [unitOf_of_ne hne, Nat.zero_mul, Nat.zero_mul, lostWeight_unit_eq_zero (h'.repr.activations ▸ hacts)] at hweight
    have hleft : L'.weigh cfg (perUnit (unitOf x.id)) ≠ 0 := by omega
    obtain ⟨s, n, ht'⟩ := exists_tenant hleft
    rcases he.born h.repr.wf h.held h.numbered ht' with ht₀ | ⟨rfl, r, trades, rfl, hhandle'⟩
    · exact hsame ht₀ ht'
    · obtain ⟨-, -, ⟨htn, -⟩ | ⟨hgone, -⟩⟩ := he.tracks h.repr.wf h.held h.numbered hhandle'
      · have hissues := h.repr.issues he
        simp only [OrderBook.issues, Ladder.issues] at hissues
        rw [if_neg hhandle', if_neg hhandle', List.cons.injEq, OrderBook.Issue.mk.injEq] at hissues
        exact absurd (hissues.1.2.2.trans (h'.tenant_eq ht' htn).2.symm) hne
      · exact absurd ht' (hgone _ _)
  · have hun := he.unentered h.repr.wf hok
    rcases hun.released with hweight | hreleased
    · have := hweight (unitOf x.id)
      have hleft : L'.weigh cfg (perUnit (unitOf x.id)) ≠ 0 := by omega
      obtain ⟨s, n, ht'⟩ := exists_tenant hleft
      rcases hch.evolves.back ht' with ⟨ht₀, -⟩ | hle
      · exact hsame ht₀ ht'
      · have := (hch.numbered h.numbered).lt ht'
        have := hun.accepted
        omega
    · rcases hreleased x.handle.index with hrel | hop | ⟨price, quantity, size, hop⟩
      · rcases hch.evolves.forth ht with ⟨ht', -⟩ | hlt
        · exact hsame ht ht'
        · omega
      · exact absurd (hhandle ▸ hop) hcancel
      · exact absurd (hhandle ▸ hop) (hreplace price quantity size)

/-- An order that is gone stays gone. -/
theorem Followed.stays_gone (h : Followed cfg issued b L) (h' : Followed cfg issued b' L')
    (hgone : ∀ x ∈ issued, (∀ s id, ¬L.Tenant s x.serial id) → ∀ s id, ¬L'.Tenant s x.serial id) (hx : x ∈ issued)
    (hdead : ¬b.LiveOrder x.serial) : ¬b'.LiveOrder x.serial := by
  rw [h.repr.liveOrder_iff h.held] at hdead
  rw [h'.repr.liveOrder_iff h'.held]
  rintro ⟨s, id, ht⟩
  exact hgone x hx (fun s id ht => hdead ⟨s, id, ht⟩) s id ht

/-- What a call settles. -/
theorem Followed.settles (hfifo : cfg.allocationMode = .fifo) (h : Followed cfg issued b L) (hi : StopsIssued issued L)
    (hret : (b.apply op).Returns (out, b')) : OrderBook.Settles issued b op out b' := by
  obtain ⟨L', h', he, -⟩ := h.apply hret
  refine ⟨fun x hx hend later hlater => ?_, fun hok a ha hinv => h.unrested h' hi he hok ha hinv, fun n hlive => h.born h' he hlive,
    fun x hx => h.stays hfifo h' he hx⟩
  obtain ⟨L'', h'', hgone⟩ := h'.later hlater
  exact h'.stays_gone h'' hgone hx (h.ended hfifo h' he hx hend)

end Calls

end Ends

end Books

/-- For every book with the handles issued on the way to it, and every book it leads to in which no slot was released 2^32 - 1 times:
every issued handle is accepted exactly while its order is live, and denotes that order; an order that is gone stays gone; two live
orders never have one handle; every activation that rests reports a handle that was issued for its order; and the free list and the live
slots are all slots. On a FIFO book every further call settles which orders are live: those it has cancelled, replaced, filled or activated
without a resting handle never are again, no order is new without a handle, and the others stay. -/
theorem handles_denote {cfg : BookConfig} {state : TradingState} {issued : List OrderBook.Issue} {b b' : OrderBook}
    (h : OrderBook.History cfg state issued b) (hlater : b.Later b')
    (hr : ∀ s, s < cfg.maxOrders → (b'.arena.slots s).releases < 2 ^ 32 - 1) :
    (∀ x ∈ issued, b'.Denotes x ∧ (¬b.LiveOrder x.serial → ¬b'.LiveOrder x.serial)) ∧
    (∀ x ∈ issued, ∀ y ∈ issued, b'.LiveOrder x.serial → b'.LiveOrder y.serial → x.handle = y.handle → x.serial = y.serial) ∧
    (∀ a ∈ b.stopActivations, a.restingHandle ≠ kInvalidHandle → ∃ x ∈ issued, x.handle = a.restingHandle ∧ x.id = a.orderId) ∧
    b'.arena.Partitioned ∧
    (cfg.allocationMode = .fifo → ∀ op out b₁, (b.apply op).Returns (out, b₁) → OrderBook.Settles issued b op out b₁) := by
  obtain ⟨L, hf, hs⟩ := h.followed
  obtain ⟨L', hf', hgone⟩ := hf.later hlater
  have hdenotes : ∀ x ∈ issued, b'.Denotes x := fun x hx => by
    have ht := hf'.tracks x hx
    refine hf'.repr.denotes hf'.held ht ?_
    rw [← hf'.repr.arena.releases trivial _ ht.2.1]
    exact hr _ ht.2.1
  refine ⟨fun x hx => ⟨hdenotes x hx, hf.stays_gone hf' hgone hx⟩, fun x hx y hy hlx hly hxy => ?_, fun a ha hne => ?_,
    hf'.repr.partitioned hf'.held, fun hfifo op out b₁ hret => hf.settles hfifo hs hret⟩
  · have h1 := ((hdenotes x hx).denotes hlx).2.1
    rw [hxy, ((hdenotes y hy).denotes hly).2.1] at h1
    exact h1.symm
  · rw [hf.repr.activations] at ha
    obtain ⟨n, hn⟩ := hs.activations a ha hne
    exact ⟨_, hn, rfl, rfl⟩

/-- An order rests and is cancelled, its slot goes to another order, that is replaced, and the replacement is filled: each of the three
handles denoted its order while that was live, and is invalid from then on. -/
theorem handles_denote_reused_slot : ∃ b b', OrderBook.History (BookConfig.small 1 (by decide) .none) .continuous
      [⟨⟨0, 1⟩, 0, 11⟩, ⟨⟨0, 2⟩, 1, 12⟩, ⟨⟨0, 3⟩, 2, 12⟩] b ∧ b.Later b' ∧ b.Denotes ⟨⟨0, 1⟩, 0, 11⟩ ∧ b.Denotes ⟨⟨0, 3⟩, 2, 12⟩ ∧
      b.orderInfo ⟨0, 1⟩ = none ∧ b.orderInfo ⟨0, 3⟩ = some ⟨12, .buy, 101, 4⟩ ∧
      ¬b'.LiveOrder 0 ∧ ¬b'.LiveOrder 1 ∧ ¬b'.LiveOrder 2 := by
  have hsome : (OrderBook.create (BookConfig.small 1 (by decide) .none) .continuous).any (fun b0 =>
      ((b0.apply (.submitLimit 11 0 1 101 5 0 1)).run 9).any fun r1 =>
      ((r1.2.apply (.cancel ⟨0, 1⟩)).run 9).any fun r2 =>
      ((r2.2.apply (.submitLimit 12 0 0 102 5 0 1)).run 9).any fun r3 =>
      ((r3.2.apply (.replace ⟨0, 2⟩ 101 4 1)).run 9).any fun r4 =>
      ((r4.2.apply (.submitMarket 13 1 4 1)).run 9).any fun r5 =>
        b0.issues (.submitLimit 11 0 1 101 5 0 1) r1.1 = [⟨⟨0, 1⟩, 0, 11⟩] && r1.2.issues (.cancel ⟨0, 1⟩) r2.1 = [] &&
        r2.2.issues (.submitLimit 12 0 0 102 5 0 1) r3.1 = [⟨⟨0, 2⟩, 1, 12⟩] &&
        r3.2.issues (.replace ⟨0, 2⟩ 101 4 1) r4.1 = [⟨⟨0, 3⟩, 2, 12⟩] &&
        r2.1.reply = .cancel ⟨.none, 11, 5⟩ && r4.1.reply = .submit ⟨.none, 0, 4, 0, ⟨0, 3⟩⟩ &&
        OrderBook.tradedBy 12 r5.1.trades = r4.2.offered (.submitMarket 13 1 4 1) r5.1 12 &&
        (r4.2.arena.slots 0).releases < 2 ^ 32 - 1 &&
        r4.2.orderInfo ⟨0, 1⟩ = none && r4.2.orderInfo ⟨0, 3⟩ = some ⟨12, .buy, 101, 4⟩) = true := by decide +kernel
  simp only [Option.any_eq_true, Bool.and_eq_true, decide_eq_true_eq] at hsome
  obtain ⟨b0, h0, ⟨o1, b1⟩, h1, ⟨o2, b2⟩, h2, ⟨o3, b3⟩, h3, ⟨o4, b4⟩, h4, ⟨o5, b5⟩, h5,
    ⟨⟨⟨⟨⟨⟨⟨⟨⟨i1, i2⟩, i3⟩, i4⟩, canceled⟩, replaced⟩, filled⟩, hr⟩, g1⟩, g3⟩⟩ := hsome
  dsimp only at i1 i2 i3 i4 canceled replaced filled
  have hist1 := (OrderBook.History.create h0).apply ⟨9, h1⟩
  have hist3 := (hist1.apply ⟨9, h2⟩).apply ⟨9, h3⟩
  have hist4 := hist3.apply ⟨9, h4⟩
  rw [i1, i2, i3, i4] at hist4
  rw [i1, i2, i3] at hist3
  rw [i1] at hist1
  have later3 : b3.Later b4 := .apply .refl ⟨9, h4⟩
  have later1 : b1.Later b4 := .apply (.apply (.apply .refl ⟨9, h2⟩) ⟨9, h3⟩) ⟨9, h4⟩
  have hreleases : ∀ s, s < 1 → (b4.arena.slots s).releases < 2 ^ 32 - 1 := fun s hs => by
    obtain rfl : s = 0 := by omega
    exact hr
  obtain ⟨hdenotes, -, -, -, hfilled⟩ := handles_denote hist4 .refl hreleases
  have hcanceled := (handles_denote hist1 later1 hreleases).2.2.2.2 rfl _ _ _ ⟨9, h2⟩
  have hreplaced := (handles_denote hist3 later3 hreleases).2.2.2.2 rfl _ _ _ ⟨9, h4⟩
  refine ⟨b4, b5, hist4, .apply .refl ⟨9, h5⟩, (hdenotes _ (by decide)).1, (hdenotes _ (by decide)).1, g1, g3, ?_, ?_, ?_⟩
  · exact hcanceled.ended ⟨⟨0, 1⟩, 0, 11⟩ (by decide) (.cancelled rfl canceled rfl) b5 (.apply (.apply (.apply .refl ⟨9, h3⟩) ⟨9, h4⟩) ⟨9, h5⟩)
  · exact hreplaced.ended ⟨⟨0, 2⟩, 1, 12⟩ (by decide) (.replaced rfl replaced rfl) b5 (.apply .refl ⟨9, h5⟩)
  · exact (hfilled rfl _ _ _ ⟨9, h5⟩).ended ⟨⟨0, 3⟩, 2, 12⟩ (by decide) (.filled filled) b5 .refl

end MatchingEngine
