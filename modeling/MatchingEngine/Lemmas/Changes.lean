import MatchingEngine.Lemmas.Auction
import MatchingEngine.Lemmas.Runs

/-!
# The changes an operation is made of

Every operation is a sequence of elementary changes of the ladder: a fill, an order that comes to rest, a stop that falls asleep, is
held, settles or is dropped, a removal, an amendment. `Ladder.Effect.changes` takes an operation apart, and an invariant of the orders
is then one case analysis over `Ladder.Change`.
-/

namespace MatchingEngine

open Comp Function

namespace Ladder

/-- An order that comes to rest for the first time. -/
structure Entry.Enters (L : Ladder) (t : Taker) (display : Nat → Nat) (e : Entry) : Prop where
  id : e.id = t.id
  trader : e.trader = t.trader
  serial : e.serial = L.accepted
  display : e.display = display e.remaining
  displayed : e.displayed = e.display

/-- One change of the ladder, within an operation `op` on a ladder `L₀`. -/
inductive Change (cfg : BookConfig) (L₀ : Ladder) (op : Op) : Ladder → Ladder → Prop where
  | mark {L L' : Ladder} (queue : L'.queue = L.queue) (stops : L'.stops = L.stops) (held : L'.held = L.held) (free : L'.free = L.free)
      (place : L'.place = L.place) (releases : L'.releases = L.releases) (accepted : L'.accepted = L.accepted) : Change cfg L₀ op L L'
  | fill {L L' : Ladder} {side : Side} {i q : Nat} {l r : List Entry} {e : Entry} (split : L.queue side i = l ++ e :: r) (pos : 0 < q)
      (le : q ≤ e.displayed) (filled : Filled L L' side i l r e q) : Change cfg L₀ op L L'
  | rest {L L0 : Ladder} {t : Taker} {i quantity : Nat} {rests : Bool} {display : Nat → Nat} {e : Entry} {free : List Nat}
      (admitted : Admitted cfg L₀ op L0 t i quantity rests display) (rests_eq : rests = true) (enters : Entry.Enters L t display e)
      (le : cfg.allocationMode = .fifo → e.remaining ≤ quantity) (lt : i < cfg.domain.tickCount) (room : L.free = e.slot :: free) :
      Change cfg L₀ op L { L.setQueue t.side i (L.queue t.side i ++ [e]) with
        free, place := update L.place e.slot (.resting t.side i), accepted := L.accepted + 1 }
  | sleep {L L' : Ladder} {id quantity size : Nat} {raw : UInt8} {side : Side} {trigger : Int} {limit : Option Int} {d : Dormant}
      (submits : stopArguments op = some (id, raw, trigger, limit, quantity, size)) (named : Side.ofRaw raw = some side)
      (pos : 0 < quantity) (le : quantity ≤ cfg.maxOrderQuantity) (limited : ∀ price, limit = some price → (cfg.domain.indexOf price).isSome)
      (rested : L.restStop id side trigger limit quantity = some (d, L')) : Change cfg L₀ op L L'
  | hold {L : Ladder} {l r : List Dormant} {d : Dormant} (split : L.stops = l ++ d :: r) (none : L.held = none) :
      Change cfg L₀ op L (L.hold d (l ++ r))
  | settle {L : Ladder} {d : Dormant} {i remaining : Nat} (held : L.held = some d) (limit : (d.taker cfg).limit = some i)
      (pos : 0 < remaining) (lt : remaining < 2 ^ 64) (le : cfg.allocationMode = .fifo → remaining ≤ d.remaining) :
      Change cfg L₀ op L (L.settle d i remaining)
  | drop {L : Ladder} {d : Dormant} (held : L.held = some d) : Change cfg L₀ op L (L.dropHeld d)
  | remove {L : Ladder} {side : Side} {i : Nat} {l r : List Entry} {e : Entry} (split : L.queue side i = l ++ e :: r) :
      Change cfg L₀ op L (L.remove side i e.slot)
  | removeStop {L : Ladder} {l r : List Dormant} {d : Dormant} (split : L.stops = l ++ d :: r) : Change cfg L₀ op L (L.removeStop d.slot)
  | amend {L : Ladder} {side : Side} {i n : Nat} {l r : List Entry} {e : Entry} (split : L.queue side i = l ++ e :: r) (pos : 0 < n)
      (le : n ≤ e.remaining) : Change cfg L₀ op L (L.amendEntry side i e.slot n)
  | amendStop {L : Ladder} {n : Nat} {l r : List Dormant} {d : Dormant} (split : L.stops = l ++ d :: r) (pos : 0 < n)
      (le : n ≤ d.remaining) : Change cfg L₀ op L (L.amendStop d.slot n)

/-- Changes one after another, each from a well-formed ladder. -/
inductive Changes (cfg : BookConfig) (L₀ : Ladder) (op : Op) : Ladder → Ladder → Prop where
  | refl {L : Ladder} : Changes cfg L₀ op L L
  | tail {L L' L'' : Ladder} (before : Changes cfg L₀ op L L') (wf : L'.Wf cfg) (change : Change cfg L₀ op L' L'') :
      Changes cfg L₀ op L L''

variable {cfg : BookConfig} {L₀ L L' L'' : Ladder} {op : Op}

namespace Changes

/-- One change. -/
theorem single (hw : L.Wf cfg) (h : Change cfg L₀ op L L') : Changes cfg L₀ op L L' := .tail .refl hw h

/-- Changes one after the other. -/
theorem trans (h : Changes cfg L₀ op L L') (h' : Changes cfg L₀ op L' L'') : Changes cfg L₀ op L L'' := by
  induction h' with
  | refl => exact h
  | tail _ hw hc ih => exact .tail ih hw hc

/-- What every change keeps, a sequence of changes keeps. -/
theorem invariant {I : Ladder → Prop} (step : ∀ L L', L.Wf cfg → I L → Change cfg L₀ op L L' → I L') (hi : I L)
    (h : Changes cfg L₀ op L L') : I L' := by
  induction h with
  | refl => exact hi
  | tail _ hw hc ih => exact step _ _ hw ih hc

end Changes

/-- Forgetting the activations, or any change outside the orders, is one change. -/
theorem Change.of_reset : Change cfg L₀ op L L.reset := .mark rfl rfl rfl rfl rfl rfl rfl

end Ladder

open Ladder

/-! ## Takers -/

namespace Sweep

variable {cfg : BookConfig} {L₀ : Ladder} {op : Op} {t : Taker} {w w' : Sweep}

/-- An execution is a change. -/
theorem Step.change {i q : Nat} {e : Entry} (hw : w.ladder.Wf cfg) (h : Step cfg t w i e q) :
    Change cfg L₀ op w.ladder (w.exec cfg t i e q).ladder := by
  obtain ⟨l, r, hq, -, hf⟩ := h.filled hw
  exact .fill hq h.pos h.le hf

/-- A taker makes changes, by induction on its executions. -/
theorem run_changes (hw : w.ladder.Wf cfg) (h : (w.run cfg t).Returns w') : Changes cfg L₀ op w.ladder w'.ladder := by
  refine (run_invariant (I := fun w' => Changes cfg L₀ op w.ladder w'.ladder) ?_ hw .refl h).2.1
  intro w' i e q hw' hc hs
  exact .tail hc hw' (hs.change hw')

/-- Under FIFO allocation a taker's remaining quantity only falls. -/
theorem run_remaining_le (hfifo : cfg.allocationMode = .fifo) (hw : w.ladder.Wf cfg) (hlt : w.remaining < 2 ^ 64)
    (h : (w.run cfg t).Returns w') : w'.remaining ≤ w.remaining := by
  refine (run_invariant (I := fun w' => w'.remaining ≤ w.remaining) ?_ hw (Nat.le_refl _) h).2.1
  intro w' i e q hw' hle hs
  have hq := hs.whole hfifo
  have : (w'.exec cfg t i e q).remaining = w'.remaining - q := sub64_eq (by omega) (by omega)
  omega

end Sweep

namespace Ladder

variable {cfg : BookConfig} {L₀ L L' : Ladder} {op : Op}

/-! ## Activations -/

/-- An activation makes changes. -/
theorem Activated.changes (hw : L.Wf cfg) (hnone : L.held = none) {d : Dormant} {sl sr : List Dormant} (hs : L.stops = sl ++ d :: sr)
    {w : Sweep} {result : SubmitResult} (h : Activated cfg L d (sl ++ sr) w result L') : Changes cfg L₀ op L L' := by
  have hhold := hw.hold hs hnone
  obtain ⟨hwf, hheld, hlt, -, -⟩ := h.wf hw hnone hs
  have hrun : Changes cfg L₀ op L w.ladder := (Changes.single hw (.hold hs hnone)).trans (Sweep.run_changes hhold h.run)
  have hle : cfg.allocationMode = .fifo → w.remaining ≤ d.remaining := fun hfifo =>
    Sweep.run_remaining_le hfifo hhold d.remaining_lt h.run
  have hmark : ∀ {L1 : Ladder} (a : List StopActivation), Change cfg L₀ op L1 { L1 with activations := a } := fun a =>
    .mark rfl rfl rfl rfl rfl rfl rfl
  rw [h.ladder]
  unfold finish
  cases hlim : (d.taker cfg).limit with
  | none => exact (hrun.tail hwf (.drop hheld)).tail (hwf.dropHeld hheld) (hmark _)
  | some i =>
    dsimp only
    by_cases hrem : w.remaining = 0
    · rw [if_neg (fun hc => hc hrem)]
      exact (hrun.tail hwf (.drop hheld)).tail (hwf.dropHeld hheld) (hmark _)
    · rw [if_pos hrem]
      exact (hrun.tail hwf (.settle hheld hlim (by omega) hlt hle)).tail (hwf.settle hheld (taker_limit_lt hlim)) (hmark _)

/-- So does a cascade. -/
theorem cascade_changes {trades trades' : List Trade} (hw : L.Wf cfg) (hnone : L.held = none)
    (h : (L.cascade cfg trades).Returns (trades', L')) : Changes cfg L₀ op L L' := by
  refine (cascade_invariant (J := fun _ L' => Changes cfg L₀ op L L') ?_ hw hnone .refl h).1
  intro trades L1 d sl sr w result L2 hw1 hnone1 hc hs _ _ hact
  exact hc.trans (hact.changes hw1 hnone1 hs)

/-! ## Orders that enter -/

section Entering

variable {L0 L1 : Ladder} {t : Taker} {i quantity : Nat} {rests : Bool} {display : Nat → Nat} {w : Sweep} {handle : Handle}

/-- What the checks of an order that enters have established. -/
structure Admitted.Sound (cfg : BookConfig) (L₀ : Ladder) (op : Op) (L0 : Ladder) (i quantity : Nat) (rests : Bool)
    (display : Nat → Nat) : Prop where
  wf : L0.Wf cfg
  held : L0.held = none
  changes : Changes cfg L₀ op L₀ L0
  pos : 0 < quantity
  le : quantity ≤ cfg.maxOrderQuantity
  level : rests = true → i < cfg.domain.tickCount
  display : ∀ r, 0 < r → 0 < display r ∧ display r ≤ r

/-- Resetting the activations keeps a ladder well formed. -/
theorem Wf.reset (h : L.Wf cfg) : L.reset.Wf cfg := h.of_slots (fun _ _ => rfl) rfl rfl rfl rfl rfl

/-- So does the removal of an entry, which leaves the stop that is held. -/
theorem Wf.remove (h : L.Wf cfg) {side : Side} {j : Nat} {l r : List Entry} {e : Entry} (hq : L.queue side j = l ++ e :: r) :
    (L.remove side j e.slot).Wf cfg ∧ (L.remove side j e.slot).held = L.held := by
  rw [remove_eq hq (h.slot_ne_of_split hq).1]
  exact ⟨h.take hq, rfl⟩

/-- The level a check has found is one of the domain. -/
theorem Passed.lt {raw rawTime : UInt8} {price : Int} {side : Side} {tif : TimeInForce}
    (h : Passed cfg L raw price quantity rawTime side i tif) : i < cfg.domain.tickCount := (cfg.domain.indexOf_eq_some.mp h.level).1

/-- An order that is admitted finds a well-formed ladder, a level of the domain and a quantity of 64 bits. -/
theorem Admitted.sound (hw : L₀.Wf cfg) (hnone : L₀.held = none) (h : Admitted cfg L₀ op L0 t i quantity rests display) :
    Admitted.Sound cfg L₀ op L0 i quantity rests display := by
  have hreset : ∀ {op}, Changes cfg L₀ op L₀ L₀.reset := .single hw .of_reset
  cases h with
  | limit _ hp _ => exact ⟨hw.reset, hnone, hreset, hp.pos, hp.le, fun _ => hp.lt, fun r hr => ⟨hr, Nat.le_refl r⟩⟩
  | postOnly _ hp _ _ => exact ⟨hw.reset, hnone, hreset, hp.pos, hp.le, fun _ => hp.lt, fun r hr => ⟨hr, Nat.le_refl r⟩⟩
  | iceberg _ hp _ hd _ _ =>
    exact ⟨hw.reset, hnone, hreset, hp.pos, hp.le, fun _ => hp.lt, fun r hr => ⟨Nat.lt_min.mpr ⟨hd, hr⟩, Nat.min_le_right _ _⟩⟩
  | market _ _ _ hpos hle => exact ⟨hw.reset, hnone, hreset, hpos, hle, nofun, fun r hr => ⟨hr, Nat.le_refl r⟩⟩
  | replace _ _ hq hp _ =>
    obtain ⟨hw1, hnone1⟩ := hw.reset.remove hq
    exact ⟨hw1.reset, hnone1.trans hnone, (hreset.tail hw.reset (.remove hq)).tail hw1 .of_reset, hp.pos, hp.le, fun _ => hp.lt,
      fun r hr => ⟨hr, Nat.le_refl r⟩⟩

/-- Matching keeps a ladder well formed. -/
theorem Matched.wf (hw : L0.Wf cfg) (h : Matched cfg L0 t quantity w) : w.ladder.Wf cfg := by
  rcases h with ⟨-, h⟩ | ⟨-, rfl⟩
  · exact Sweep.run_wf hw h
  · exact hw

/-- It keeps what a taker does not touch. -/
theorem Matched.kept (hw : L0.Wf cfg) (h : Matched cfg L0 t quantity w) : L0.Kept w.ladder := by
  rcases h with ⟨-, h⟩ | ⟨-, rfl⟩
  · exact Sweep.run_kept hw h
  · exact Kept.refl _

/-- It makes changes. -/
theorem Matched.changes (hw : L0.Wf cfg) (h : Matched cfg L0 t quantity w) : Changes cfg L₀ op L0 w.ladder := by
  rcases h with ⟨-, h⟩ | ⟨-, rfl⟩
  · exact Sweep.run_changes hw h
  · exact .refl

/-- What it leaves of the taker is a quantity of 64 bits. -/
theorem Matched.remaining_lt (hw : L0.Wf cfg) (hlt : quantity < 2 ^ 64) (h : Matched cfg L0 t quantity w) : w.remaining < 2 ^ 64 := by
  rcases h with ⟨-, h⟩ | ⟨-, rfl⟩
  · exact Sweep.run_remaining_lt hw hlt h
  · exact hlt

/-- Under FIFO allocation it is at most the quantity of the taker. -/
theorem Matched.remaining_le (hfifo : cfg.allocationMode = .fifo) (hw : L0.Wf cfg) (hlt : quantity < 2 ^ 64)
    (h : Matched cfg L0 t quantity w) : w.remaining ≤ quantity := by
  rcases h with ⟨-, h⟩ | ⟨-, rfl⟩
  · exact Sweep.run_remaining_le hfifo hw hlt h
  · exact Nat.le_refl _

/-- An order that rests, or does not, leaves a well-formed ladder. -/
theorem Rested.wf (hw : w.ladder.Wf cfg) (hi : rests = true → i < cfg.domain.tickCount) (h : Rested w t i rests display handle L1) :
    L1.Wf cfg := by
  rcases h with ⟨hr, -, h⟩ | ⟨-, -, rfl⟩
  · have hL : L1 = _ := congrArg Prod.snd h
    rw [hL]
    exact hw.rest (hi hr)
  · exact hw

/-- It leaves the stop that is held. -/
theorem Rested.held (h : Rested w t i rests display handle L1) : L1.held = w.ladder.held := by
  rcases h with ⟨-, -, h⟩ | ⟨-, -, rfl⟩
  · have hL : L1 = _ := congrArg Prod.snd h
    rw [hL]
    unfold rest
    split
    · rfl
    · split <;> rfl
  · rfl

/-- An order that comes to rest is one change. -/
theorem Rested.changes (hw₀ : L₀.Wf cfg) (hnone : L₀.held = none) (ha : Admitted cfg L₀ op L0 t i quantity rests display)
    (hm : Matched cfg L0 t quantity w) (h : Rested w t i rests display handle L1) : Changes cfg L₀ op w.ladder L1 := by
  have hs := ha.sound hw₀ hnone
  have hw := hm.wf hs.wf
  have hmax := cfg.maxOrderQuantity_lt
  have hle := hs.le
  rcases h with ⟨hr, -, h⟩ | ⟨-, -, rfl⟩
  · have hL : L1 = _ := congrArg Prod.snd h
    rw [hL]
    unfold rest
    split
    · exact .refl
    · rename_i slot free hfree
      split
      · refine .single hw (.rest ha hr ⟨rfl, rfl, rfl, rfl, rfl⟩ (fun hfifo => ?_) (hs.level hr) hfree)
        exact hm.remaining_le hfifo hs.wf (by omega)
      · exact .refl
  · exact .refl

end Entering

/-! ## Stops that are submitted -/

/-- What a stop that falls asleep leaves. -/
structure Slept (L L' : Ladder) (id : Nat) (side : Side) (trigger : Int) (limit : Option Int) (quantity : Nat) (d : Dormant) : Prop where
  room : ∃ free, L.free = d.slot :: free ∧ L' = { L with
    stops := L.stops ++ [d], free, place := update L.place d.slot .dormant, accepted := L.accepted + 1 }
  id : d.id = id
  side : d.side = side
  trigger : d.trigger = trigger
  limit : d.limit = limit
  remaining : d.remaining = quantity
  serial : d.serial = L.accepted

/-- A stop that is submitted sleeps in its slot. -/
theorem restStop_slept {id quantity : Nat} {side : Side} {trigger : Int} {limit : Option Int} {d : Dormant}
    (h : L.restStop id side trigger limit quantity = some (d, L')) : Slept L L' id side trigger limit quantity d := by
  unfold restStop at h
  split at h
  · cases h
  · rename_i slot free hfree
    split at h
    · rw [Option.some.injEq, Prod.mk.injEq] at h
      obtain ⟨rfl, rfl⟩ := h
      exact ⟨⟨free, hfree, rfl⟩, rfl, rfl, rfl, rfl, rfl, rfl⟩
    · cases h

/-- A stop that falls asleep is held for a moment in the slot it takes. -/
theorem Slept.wf {id quantity : Nat} {side : Side} {trigger : Int} {limit : Option Int} {d : Dormant} (hw : L.Wf cfg)
    (hnone : L.held = none) (h : Slept L L' id side trigger limit quantity d) : L'.Wf cfg ∧ L'.held = none := by
  obtain ⟨free, hfree, rfl⟩ := h.room
  refine ⟨?_, hnone⟩
  have h1 := (hw.acquire hfree hnone (d := d) rfl).sleep (d := d) rfl
  exact h1.of_slots (fun _ _ => rfl) rfl (congrArg _ hnone) rfl (update_idem _ _ _).symm rfl

/-! ## Operations -/

/-- The uncross makes changes, by induction on its rounds. -/
theorem auction_changes {clearing remaining remaining' : Nat} {price : Int} {trades trades' : List Trade} (hw : L.Wf cfg)
    (h : (auction cfg clearing price (L, remaining, trades)).Returns (L', remaining', trades')) :
    Changes cfg L₀ op L L' ∧ L'.Wf cfg ∧ L'.held = L.held := by
  have key := auction_invariant (I := fun L' _ _ => Changes cfg L₀ op L L' ∧ L'.held = L.held)
    (fun L1 M L2 rem trades q bid ask b a rb ra hw1 hi hs => by
      have heq := hs.eq
      have hc1 : Change cfg L₀ op L1 M := .fill (l := []) hs.bids hs.pos (by omega) hs.bidFilled
      have hc2 : Change cfg L₀ op M L2 := .fill (l := []) hs.asks_mid hs.pos (by omega) hs.askFilled
      exact ⟨(hi.1.tail hw1 hc1).tail hs.mid_wf hc2, hs.askFilled.held.trans (hs.bidFilled.held.trans hi.2)⟩) hw ⟨.refl, rfl⟩ h
  exact ⟨key.2.1.1, key.1, key.2.1.2⟩

/-- It keeps what a taker does not touch. -/
theorem auction_kept {clearing remaining remaining' : Nat} {price : Int} {trades trades' : List Trade} (hw : L.Wf cfg)
    (h : (auction cfg clearing price (L, remaining, trades)).Returns (L', remaining', trades')) : L.Kept L' :=
  (auction_invariant (I := fun L' _ _ => L.Kept L')
    (fun _ _ _ _ _ _ _ _ _ _ _ _ hw hk hs =>
      (hk.trans (hs.bidFilled.kept (l := []) hw hs.bids)).trans (hs.askFilled.kept (l := []) hs.mid_wf hs.asks_mid))
    hw (Kept.refl L) h).2.1

/-- Every operation is a sequence of changes. -/
theorem Effect.changes {out : Outcome} (hw : L.Wf cfg) (hnone : L.held = none) (h : Effect cfg L op out L') : Changes cfg L op L L' := by
  have hreset : ∀ {op}, Changes cfg L op L L.reset := .single hw .of_reset
  cases h with
  | refused _ _ hsame =>
    rcases hsame with rfl | rfl
    · exact .refl
    · exact hreset
  | entered ha hm hr hc =>
    have hs := ha.sound hw hnone
    have hw1 := hm.wf hs.wf
    have hw2 := hr.wf hw1 hs.level
    have hnone2 : _ = none := hr.held.trans ((hm.kept hs.wf).held.trans hs.held)
    exact ((hs.changes.trans (hm.changes hs.wf)).trans (hr.changes hw hnone ha hm)).trans (cascade_changes hw2 hnone2 hc)
  | lost _ _ hq _ _ _ _ _ =>
    obtain ⟨hw1, -⟩ := hw.reset.remove hq
    exact (hreset.tail hw.reset (.remove hq)).tail hw1 .of_reset
  | slept hsub hnamed hpos hle _ hlim hrest _ => exact hreset.tail hw.reset (.sleep hsub hnamed hpos hle hlim hrest)
  | fired hsub hnamed hpos hle _ hlim hrest _ hact hc =>
    have hsl := restStop_slept hrest
    obtain ⟨hw1, hnone1⟩ := hsl.wf hw.reset hnone
    have hsleep : Changes cfg L op L _ := hreset.tail hw.reset (.sleep hsub hnamed hpos hle hlim hrest)
    rw [← List.append_nil L.stops] at hact
    obtain ⟨free, -, rfl⟩ := hsl.room
    obtain ⟨-, -, -, hw2, hnone2⟩ := hact.wf hw1 hnone1 rfl
    exact (hsleep.trans (hact.changes hw1 hnone1 rfl)).trans (cascade_changes hw2 hnone2 hc)
  | cancelMissed _ => exact .refl
  | cancelled hloc =>
    obtain ⟨l, r, hq, -⟩ := resolve_resting hloc
    exact .single hw (.remove hq)
  | cancelledStop hloc =>
    obtain ⟨l, r, hs, -⟩ := resolve_dormant hloc
    exact .single hw (.removeStop hs)
  | amendRefused _ => exact .refl
  | amended hloc hpos hle _ =>
    obtain ⟨l, r, hq, -⟩ := resolve_resting hloc
    exact .single hw (.amend hq hpos hle)
  | amendedStop hloc hpos hle _ =>
    obtain ⟨l, r, hs, -⟩ := resolve_dormant hloc
    exact .single hw (.amendStop hs hpos hle)
  | uncrossRefused _ => exact .refl
  | opened _ _ => exact .single hw (.mark rfl rfl rfl rfl rfl rfl rfl)
  | @uncrossed size _ _ _ _ _ _ _ hloop =>
    have hw1 : { L with tradingState := .continuous }.Wf cfg := hw.of_slots (fun _ _ => rfl) rfl rfl rfl rfl rfl
    obtain ⟨hc, hw2, -⟩ := auction_changes hw1 hloop
    have hmark : Change cfg L (.uncrossOpeningAuction size) L { L with tradingState := .continuous } := .mark rfl rfl rfl rfl rfl rfl rfl
    exact ((Changes.single hw hmark).trans hc).tail hw2 (.mark rfl rfl rfl rfl rfl rfl rfl)

/-- What every change keeps holds after every run. -/
theorem Run.invariant_of_changes {state : TradingState} {calls : List (Op × Outcome)} {I : Ladder → Prop}
    (init : I (Ladder.create cfg state)) (step : ∀ L₀ op L L', L.Wf cfg → I L → Change cfg L₀ op L L' → I L')
    (h : Ladder.Run cfg state calls L) : I L :=
  h.invariant (I := fun _ L => I L) init fun _ L op _ _ hw hnone hi he => (he.changes hw hnone).invariant (step L op) hi

end Ladder

end MatchingEngine
