import MatchingEngine.Lemmas.Cascade
import MatchingEngine.Theorems.Rejections

/-!
# Stops and their activations

No call leaves a triggered stop behind, and it activates the stops it triggers in the order of their submission, each once. The list of
activations says so, but for one slip: `submit_post_only` checks before it forgets the list of an earlier call.
-/

namespace MatchingEngine

open Comp Ladder

section Stops

variable {cfg : BookConfig} {state : TradingState} {calls : List (Op × Outcome)} {b b' : OrderBook} {L : Ladder} {op : Op} {out : Outcome}

theorem Outcome.rejects_of_submits (h : (b.apply op).Returns (out, b')) (hsub : op.submits = true) (hacc : out.accepted = false) :
    out.reply.Rejects := by
  have hsubmitted : ∀ {c : Comp (SubmitResult × List Trade × OrderBook)}, (do return submitted (← c)).Returns (out, b') →
      out.reply.Rejects := by
    intro c hc
    obtain ⟨⟨result, trades, b1⟩, -, heq⟩ := (returns_bind _ _ _).mp hc
    rw [returns_pure, submitted, Prod.mk.injEq] at heq
    obtain ⟨rfl, rfl⟩ := heq
    exact of_decide_eq_false hacc
  cases op with
  | cancel => cases hsub
  | amendQuantity => cases hsub
  | uncrossOpeningAuction => cases hsub
  | _ => exact hsubmitted h

/-- A rejected submission leaves no activation listed, unless it is a post-only order that its own checks refuse. -/
theorem OrderBook.rejected_activations (h : (b.apply op).Returns (out, b')) (hsub : op.submits = true) (hacc : out.accepted = false) :
    ¬b.RefusesPostOnly op → b'.stopActivations = [] := by
  have hr := Outcome.rejects_of_submits h hsub hacc
  have hreset : out.trades = [] ∧ b' = b.resetStopActivations → b'.stopActivations = [] := fun hs => by rw [hs.2]; rfl
  intro hnot
  cases op with
  | submitLimit => exact hreset ((leaves_submitLimit _ _ _ _ _ _ _ _).submitted h hr)
  | submitPostOnly id side price quantity size =>
    obtain ⟨hsize, hpre⟩ := not_or.mp hnot
    change (do return submitted (← b.submitPostOnly id side price quantity size)).Returns (out, b') at h
    unfold submitPostOnly at h
    rw [if_neg hsize, not_not.mp hpre] at h
    exact hreset ((leaves_submitLimit _ _ _ _ _ _ _ _).submitted h hr)
  | submitIceberg => exact hreset ((leaves_submitIceberg _ _ _ _ _ _ _ _).submitted h hr)
  | submitMarket => exact hreset ((leaves_submitMarket _ _ _ _ _).submitted h hr)
  | submitStop => exact hreset ((leaves_submitStopOrder _ _ _ _ _ _ _).submitted h hr)
  | submitStopLimit => exact hreset ((leaves_submitStopOrder _ _ _ _ _ _ _).submitted h hr)
  | replace =>
    obtain ⟨-, rfl | ⟨-, -, rfl⟩⟩ := replace_rejects h hr
    · rfl
    · rfl
  | _ => cases hsub

/-- A post-only order that its own checks refuse is rejected, and leaves the book with the list it had. -/
theorem OrderBook.RefusesPostOnly.leaves (hpost : b.RefusesPostOnly op) (h : (b.apply op).Returns (out, b')) :
    out.accepted = false ∧ b' = b := by
  cases op with
  | submitPostOnly id side price quantity size =>
    obtain ⟨⟨result, trades, b1⟩, h1, heq⟩ := (returns_bind _ _ _).mp h
    rw [returns_pure, submitted, Prod.mk.injEq] at heq
    obtain ⟨rfl, rfl⟩ := heq
    have hrejected : ∀ (reason : RejectReason), reason ≠ .none →
        (pure (rejected reason quantity, [], b) : Comp _).Returns (result, trades, b1) →
          (Outcome.accepted ⟨.submit result, trades⟩) = false ∧ b1 = b := by
      intro reason hne hret
      rw [returns_pure, Prod.mk.injEq, Prod.mk.injEq] at hret
      obtain ⟨rfl, rfl, rfl⟩ := hret
      exact ⟨decide_eq_false hne, rfl⟩
    unfold submitPostOnly at h1
    split at h1
    · exact hrejected .insufficientTradeCapacity (by rintro ⟨⟩) h1
    · rename_i hsize
      have hpre := hpost.resolve_left hsize
      split at h1
      · contradiction
      · exact hrejected _ (by assumption) h1
  | _ => exact hpost.elim

/-- Every call on a reachable book, by its activations. -/
theorem Rep.cascades (h : Rep True cfg b L) (hnone : L.held = none) (hq : L.Quiet) (ho : L.StopsInOrder) (hn : L.Numbered)
    (hret : (b.apply op).Returns (out, b')) :
    ∃ picks, b.Cascades op out picks b' ∧ (picks.map OrderBook.Pick.serial).Nodup ∧ picks.length ≤ b.dormantStopCount + 1 ∧
      (cfg.allocationMode = .fifo → ∀ p ∈ picks, p.Executes) ∧
      (out.accepted = true → b'.stopActivations = picks.map OrderBook.Pick.activation) := by
  obtain ⟨L', -, hrepr', -, hcourse⟩ := h.course hnone hq hret
  cases hacc : out.accepted with
  | false => exact ⟨[], ⟨fun h => absurd (hacc.symm.trans h) nofun, fun _ => rfl⟩, List.nodup_nil, Nat.zero_le _,
    fun _ p hp => absurd hp List.not_mem_nil, nofun⟩
  | true =>
    obtain ⟨picks, result, trades, b₁, L₁, hc⟩ := hcourse hacc
    obtain ⟨hchanges, -, -⟩ := hc.stage'.kept h.wf hnone
    obtain ⟨hnil, hlen⟩ := hc.stage'.lists h.wf hnone
    have hn₁ := hchanges.numbered hn
    have ho₁ := hchanges.stopsInOrder hn ho
    obtain ⟨hnodup, hpicks⟩ := hc.traced.nodup ho₁
    refine ⟨picks, ⟨fun _ => ⟨result, trades, b₁, hc.stage, hc.traced.activates hn₁ ho₁⟩, fun h => absurd (hacc.symm.trans h) nofun⟩,
      hnodup, ?_, hc.traced.executes, fun _ => ?_⟩
    · rw [h.stopCount]
      omega
    · rw [hrepr'.activations, hc.traced.activations, hnil, List.nil_append]

end Stops

/-- On every reachable book, under FIFO allocation and no self-trade policy: every operation returns, leaves no triggered stop among the
dormant ones, and activates stops one after the other, each time the one that was submitted earliest of those triggered; none is activated
twice, there are at most one more than there were dormant, and each executes what it reports. A submission other than post-only leaves
just these activations listed. -/
theorem stops_cascade {cfg : BookConfig} {state : TradingState} {calls : List (Op × Outcome)} {b : OrderBook}
    (run : OrderBook.Run cfg state calls b) (hfifo : cfg.allocationMode = .fifo) (hpolicy : cfg.selfTradePolicy = .none) (op : Op) :
    ∃ out b' picks, (b.apply op).Returns (out, b') ∧ b.Cascades op out picks b' ∧ (∀ s ∈ b'.stopSlots, b'.stopTriggered s = false) ∧
      (picks.map OrderBook.Pick.serial).Nodup ∧ picks.length ≤ b.dormantStopCount + 1 ∧ (∀ p ∈ picks, p.Executes) ∧
      (op.submits = true → op.postOnly = false → b'.stopActivations = picks.map OrderBook.Pick.activation) := by
  obtain ⟨L, hrun, hrepr, hnone⟩ := run.ladder
  obtain ⟨⟨out, L'⟩, hretL⟩ := Ladder.apply_terminates hfifo hpolicy hrepr.wf hnone op
  obtain ⟨⟨out', b'⟩, hret, -⟩ := (hrepr.apply hnone op).2 _ hretL
  obtain ⟨picks, hcas, hnodup, hlen, hexec, hlist⟩ := hrepr.cascades hnone hrun.quiet hrun.stopsInOrder hrun.numbered hret
  refine ⟨out', b', picks, hret, hcas, fun s hs => ?_, hnodup, hlen, hexec hfifo, fun hsub hpost => ?_⟩
  · obtain ⟨L'', heff, hrepr', hnone', -⟩ := hrepr.course hnone hrun.quiet hret
    rw [hrepr'.stopSlots] at hs
    obtain ⟨d, hd, rfl⟩ := List.mem_map.mp hs
    rw [hrepr'.stopTriggered hd]
    exact heff.quiet hrepr.wf hnone hrun.opening hrun.quiet d hd
  · cases hacc : out'.accepted with
    | true => exact hlist hacc
    | false =>
      rw [hcas.rejected hacc]
      refine OrderBook.rejected_activations hret hsub hacc ?_
      cases op with
      | submitPostOnly => cases hpost
      | _ => exact id

/-- Two stops that wait for 103 and for 104, and asks at both prices. -/
def waitingStops : List Op :=
  [.submitStop 1 0 103 1 4, .submitStop 2 0 104 1 4, .submitLimit 3 7 1 103 1 0 4, .submitLimit 4 7 1 104 1 0 4]

/-- A bid that takes the first ask sets off the first stop, which takes the second ask and sets off the second stop. -/
theorem stops_cascade_two : ∃ calls b, OrderBook.Run (BookConfig.small 4 (by decide) .none) .continuous calls b ∧
    ∃ out b' picks, (b.apply (.submitLimit 5 8 0 103 1 0 4)).Returns (out, b') ∧ b.Cascades (.submitLimit 5 8 0 103 1 0 4) out picks b' ∧
      picks.map OrderBook.Pick.activation = [⟨1, 1, 0, kInvalidHandle⟩, ⟨2, 0, 1, kInvalidHandle⟩] ∧ ∀ p ∈ picks, p.Executes := by
  have hsome : (OrderBook.execute (BookConfig.small 4 (by decide) .none) .continuous 20 waitingStops).any (fun r =>
      ((r.2.apply (.submitLimit 5 8 0 103 1 0 4)).run 20).any fun r' =>
        r'.2.stopActivations = [⟨1, 1, 0, kInvalidHandle⟩, ⟨2, 0, 1, kInvalidHandle⟩]) = true := by decide +kernel
  rw [Option.any_eq_true] at hsome
  obtain ⟨⟨calls, b⟩, h, hb⟩ := hsome
  rw [Option.any_eq_true] at hb
  obtain ⟨⟨out, b'⟩, hret, hact⟩ := hb
  have hact := of_decide_eq_true hact
  obtain ⟨out', b'', picks, hret', hcas, -, -, -, hexec, hlist⟩ :=
    stops_cascade (OrderBook.Run.of_execute h) rfl rfl (.submitLimit 5 8 0 103 1 0 4)
  cases hret'.unique ⟨20, hret⟩
  exact ⟨calls, b, OrderBook.Run.of_execute h, out, b', picks, hret', hcas, (hlist rfl rfl).symm.trans hact, hexec⟩

/-- A bid that takes an ask and sets off a stop: its activation is listed. -/
def firedStop : List Op := [.submitStop 1 0 103 1 4, .submitLimit 2 7 1 103 1 0 4, .submitLimit 3 8 0 103 1 0 4]

/-- A post-only order with too small a span for its reports is rejected, and the book lists the activation of the call before. -/
theorem refused_post_only_lists_earlier : ∃ calls b, OrderBook.Run (BookConfig.small 4 (by decide) .none) .continuous calls b ∧
    ∃ out b', (b.apply (.submitPostOnly 4 0 100 1 0)).Returns (out, b') ∧
      out.reply = .submit (rejected .insufficientTradeCapacity 1) ∧ b'.stopActivations = [⟨1, 0, 1, kInvalidHandle⟩] ∧
      ¬b.ListsActivations (.submitPostOnly 4 0 100 1 0) out b' := by
  have hsome : (OrderBook.execute (BookConfig.small 4 (by decide) .none) .continuous 20 firedStop).any (fun r =>
      ((r.2.apply (.submitPostOnly 4 0 100 1 0)).run 20).any fun r' => r'.1.reply = .submit (rejected .insufficientTradeCapacity 1) &&
        r'.2.stopActivations = [⟨1, 0, 1, kInvalidHandle⟩]) = true := by decide +kernel
  rw [Option.any_eq_true] at hsome
  obtain ⟨⟨calls, b⟩, h, hb⟩ := hsome
  rw [Option.any_eq_true] at hb
  obtain ⟨⟨out, b'⟩, hret, hb⟩ := hb
  rw [Bool.and_eq_true, decide_eq_true_eq, decide_eq_true_eq] at hb
  refine ⟨calls, b, OrderBook.Run.of_execute h, out, b', ⟨20, hret⟩, hb.1, hb.2, fun ⟨picks, hcas, hlist⟩ => ?_⟩
  have hacc : out.accepted = false := by
    rw [Outcome.accepted, hb.1]
    rfl
  rw [hcas.rejected hacc, hb.2] at hlist
  cases hlist

/-- On every reachable book, whatever the configuration: right after a submission the book lists just the stops that the submission
activated, exactly if it is not a post-only order that its own checks refuse while activations of an earlier call are still listed. -/
theorem lists_activations_iff {cfg : BookConfig} {state : TradingState} {calls : List (Op × Outcome)} {b : OrderBook}
    (run : OrderBook.Run cfg state calls b) {op : Op} (hsub : op.submits = true) {out : Outcome} {b' : OrderBook}
    (hret : (b.apply op).Returns (out, b')) :
    b.ListsActivations op out b' ↔ ¬(b.RefusesPostOnly op ∧ b.stopActivations ≠ []) := by
  obtain ⟨L, hrun, hrepr, hnone⟩ := run.ladder
  constructor
  · rintro ⟨picks, hcas, hlist⟩ ⟨hpost, hne⟩
    obtain ⟨hacc, rfl⟩ := hpost.leaves hret
    rw [hcas.rejected hacc] at hlist
    exact hne hlist
  · intro hnot
    obtain ⟨picks, hcas, -, -, -, hlist⟩ := hrepr.cascades hnone hrun.quiet hrun.stopsInOrder hrun.numbered hret
    refine ⟨picks, hcas, ?_⟩
    cases hacc : out.accepted with
    | true => exact hlist hacc
    | false =>
      rw [hcas.rejected hacc]
      by_cases hpost : b.RefusesPostOnly op
      · obtain ⟨-, rfl⟩ := hpost.leaves hret
        exact not_not.mp fun hne => hnot ⟨hpost, hne⟩
      · exact OrderBook.rejected_activations hret hsub hacc hpost

/-- A submission with another span too small for its reports forgets the list of the call before. -/
theorem lists_activations_iff_limit : ∃ calls b, OrderBook.Run (BookConfig.small 4 (by decide) .none) .continuous calls b ∧
    ∃ out b', (b.apply (.submitLimit 4 7 0 100 1 0 0)).Returns (out, b') ∧ b.ListsActivations (.submitLimit 4 7 0 100 1 0 0) out b' := by
  have hsome : (OrderBook.execute (BookConfig.small 4 (by decide) .none) .continuous 20 firedStop).any (fun r =>
      ((r.2.apply (.submitLimit 4 7 0 100 1 0 0)).run 20).isSome) = true := by decide +kernel
  rw [Option.any_eq_true] at hsome
  obtain ⟨⟨calls, b⟩, h, hb⟩ := hsome
  obtain ⟨⟨out, b'⟩, hret⟩ := Option.isSome_iff_exists.mp hb
  exact ⟨calls, b, OrderBook.Run.of_execute h, out, b', ⟨20, hret⟩,
    (lists_activations_iff (OrderBook.Run.of_execute h) rfl ⟨20, hret⟩).mpr fun hrefuses => hrefuses.1⟩

end MatchingEngine
