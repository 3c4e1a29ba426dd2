import Mathlib
import Constituency.Proofs.Admitted
import Constituency.Proofs.Balance

/-!
One round of the inside pass. What is poured into a blank interval are the words below it or the
binary rules over it, and the interval is finished from there.
-/

namespace Constituency.MassChart

open Score LogScore ExtendedReal

variable {problem : Problem EReal} {chart next : MassChart EReal} {start stop : Nat}
  {label : Label} {threshold : EReal}

theorem sum_flatMap {ι : Type} (items : List ι) (parts : ι → List ENNReal) :
    (items.flatMap parts).sum = (items.map fun item => (parts item).sum).sum := by
  rw [List.flatMap_def, List.sum_flatten, List.map_map]
  rfl

/-- A round of the inside pass: one interval is finished, from what is poured into it. -/
structure Round (problem : Problem EReal) (threshold : EReal) (start stop : Nat)
    (weights : Label → ENNReal) (chart next : MassChart EReal) : Prop where
  isLocal : Local problem start stop chart next
  finished : Finished problem threshold start stop next
  before : ∀ label, problem.grammar.Registered label →
    EReal.exp (next.before.get start stop label) = weights label

theorem round_of_poured (coherent : problem.grammar.Coherent)
    (fits : problem.grammar.labelCount < numberLimit) (sized : chart.Sized problem)
    (within : start ≤ problem.length ∧ stop ≤ problem.length)
    (blank : Blank problem chart start stop) {shares : List (Label × EReal)}
    (known : ∀ share ∈ shares, problem.grammar.Registered share.1) {poured : MassChart EReal}
    (isLocal : Local problem start stop chart poured)
    (before : poured.before = chart.before.pour start stop shares)
    (after : poured.after = chart.after) (unary : poured.unaryScores = chart.unaryScores)
    (threshold : EReal) :
    (close threshold poured start stop).binaryScores = poured.binaryScores ∧
      Round problem threshold start stop
        (fun label => (((shares.filter (·.1 = label)).map Prod.snd).map EReal.exp).sum) chart
        (close threshold poured start stop) := by
  obtain ⟨isLocal', before', binary, finished⟩ := finished_close coherent fits isLocal.sized within
    (by rw [after]; exact blank.after) (by rw [unary]; exact blank.unary) threshold
  refine ⟨binary, isLocal.trans isLocal', finished, fun label registered => ?_⟩
  have own := sized.before.get_pour within within known registered
  rw [if_pos rfl, blank.before label registered] at own
  rw [before', before, own, exp_foldl_logAdd, EReal.exp_bot, zero_add]

theorem round_word (coherent : problem.grammar.Coherent)
    (fits : problem.grammar.labelCount < numberLimit) (sized : chart.Sized problem)
    (bound : start < problem.length) (blank : Blank problem chart start (start + 1))
    (threshold : EReal) :
    Round problem threshold start (start + 1) (wordWeight problem start) chart
      (close threshold (chart.addTerminals start) start (start + 1)) := by
  have within : start ≤ problem.length ∧ start + 1 ≤ problem.length := by omega
  have known : ∀ share ∈ terminalShares problem start, problem.grammar.Registered share.1 := by
    intro share member
    obtain ⟨label, terminal, rfl⟩ := List.mem_map.mp member
    exact coherent.terminals_registered label (coherent.mem_terminalsFor terminal)
  have isLocal := sized.local_pourBefore within known fun _ _ _ _ => rfl
  have poured : chart.addTerminals start = { chart with
      before := chart.before.pour start (start + 1) (terminalShares problem start) } := by
    rw [addTerminals_eq, sized.problem_eq]
  rw [← poured] at isLocal
  obtain ⟨_, round⟩ := round_of_poured coherent fits sized within blank known isLocal
    (by rw [poured]) (by rw [poured]) (by rw [poured]) threshold
  refine ⟨round.isLocal, round.finished, fun label registered => ?_⟩
  rw [round.before label registered, wordWeight]
  simp [terminalShares, List.filter_map, Function.comp_def]

theorem sum_met (sized : chart.Sized problem) (start stop : Nat) (label : Label) :
    ((((((chart.met start stop).map (chart.binaryShare start stop)).filter (·.1 = label)).map
      Prod.snd).map EReal.exp).sum) = binaryWeight problem chart start stop label := by
  rw [met, sum_shares, BestChart.offers, List.filter_flatMap, List.map_flatMap, sum_flatMap,
    sized.problem_eq, binaryWeight]
  congr 1
  refine List.map_congr_left fun split _ => ?_
  rw [List.filter_map, List.map_map]
  congr 1
  refine List.map_congr_left fun rule _ => ?_
  rw [weight_after, weight_after, Function.comp_apply, meets, binaryShare, sized.problem_eq]
  by_cases left : chart.live.isLive start split rule.1.left .afterUnary = true
  · by_cases right : chart.live.isLive split stop rule.1.right .afterUnary = true
    · simp [left, right, EReal.exp_add]
    · simp [left, right]
  · simp [left]

theorem binaryScores_addBinaries (sized : chart.Sized problem) {split number : Nat}
    {rule : BinaryRule} (inside : start < split ∧ split < stop)
    (found : problem.grammar.binaryRule? number = some rule) :
    (chart.addBinaries start stop).binaryScores[(start, split, stop, number)]? =
      if chart.meets start stop (split, rule, number) then
        some (binaryScore problem start split stop rule number)
      else chart.binaryScores[(start, split, stop, number)]? := by
  have only : ∀ offer ∈ chart.met start stop, offer.1 = split → offer.2.2 = number →
      offer = (split, rule, number) := by
    intro entry member same same'
    obtain ⟨split', rule', number'⟩ := entry
    obtain rfl := same
    obtain rfl := same'
    have offered := (BestChart.mem_offers.mp (List.mem_of_mem_filter member)).2
    rw [sized.problem_eq, found] at offered
    rw [Option.some.inj offered]
  rw [addBinaries_eq]
  by_cases meet : chart.meets start stop (split, rule, number) = true
  · have member : (split, rule, number) ∈ chart.met start stop := by
      refine List.mem_filter.mpr ⟨BestChart.mem_offers.mpr ⟨inside, ?_⟩, meet⟩
      rw [sized.problem_eq]
      exact found
    rw [if_pos meet, ← sized.problem_eq]
    refine getElem?_foldl_insert_of_mem
      (fun offer : Nat × BinaryRule × Nat => (start, offer.1, stop, offer.2.2))
      (fun offer => binaryScore chart.problem start offer.1 stop offer.2.1 offer.2.2) member
      ?_ chart.binaryScores
    intro other inside' clash
    obtain ⟨splits, numbers⟩ : other.1 = split ∧ other.2.2 = number := by simpa using clash
    rw [only other inside' splits numbers]
  · rw [if_neg meet]
    refine getElem?_foldl_insert_of_forall_ne _ _ (fun offer member clash => meet ?_) _
    obtain ⟨splits, numbers⟩ : offer.1 = split ∧ offer.2.2 = number := by simpa using clash
    rw [← only offer member splits numbers]
    exact (List.mem_filter.mp member).2

theorem binaryScores_addBinaries_of_ne (chart : MassChart EReal) {other : Nat × Nat}
    (apart : other ≠ (start, stop)) (split number : Nat) :
    (chart.addBinaries start stop).binaryScores[(other.1, split, other.2, number)]? =
      chart.binaryScores[(other.1, split, other.2, number)]? := by
  rw [addBinaries_eq]
  refine getElem?_foldl_insert_of_forall_ne _ _ (fun offer _ clash => apart ?_) _
  rw [Prod.mk.injEq, Prod.mk.injEq, Prod.mk.injEq] at clash
  exact Prod.ext clash.1.symm clash.2.2.1.symm

theorem round_wide (coherent : problem.grammar.Coherent)
    (fits : problem.grammar.labelCount < numberLimit) (sized : chart.Sized problem)
    (bounds : start < stop ∧ stop ≤ problem.length) (blank : Blank problem chart start stop)
    (threshold : EReal) :
    Round problem threshold start stop (binaryWeight problem chart start stop) chart
        (close threshold (chart.addBinaries start stop) start stop) ∧
      ∀ split rule number, start < split ∧ split < stop →
        problem.grammar.binaryRule? number = some rule →
          (close threshold (chart.addBinaries start stop) start stop).binaryScores[
            (start, split, stop, number)]? =
              if chart.meets start stop (split, rule, number) then
                some (binaryScore problem start split stop rule number)
              else none := by
  have within : start ≤ problem.length ∧ stop ≤ problem.length := by omega
  have known : ∀ share ∈ (chart.met start stop).map (chart.binaryShare start stop),
      problem.grammar.Registered share.1 := by
    intro share member
    obtain ⟨⟨split, rule, number⟩, inside, rfl⟩ := List.mem_map.mp member
    have offer := BestChart.mem_offers.mp (List.mem_of_mem_filter inside)
    rw [sized.problem_eq] at offer
    exact (coherent.registered_of_binaryRule? offer.2).1
  have poured : chart.addBinaries start stop = { chart with
      before := chart.before.pour start stop
        ((chart.met start stop).map (chart.binaryShare start stop))
      binaryScores := (chart.addBinaries start stop).binaryScores } := by
    rw [addBinaries_eq]
  have isLocal := sized.local_pourBefore within known fun other apart split number =>
    chart.binaryScores_addBinaries_of_ne apart split number
  rw [← poured] at isLocal
  obtain ⟨binary, round⟩ := round_of_poured coherent fits sized within blank known isLocal
    (by rw [poured]) (by rw [poured]) (by rw [poured]) threshold
  refine ⟨⟨round.isLocal, round.finished, fun label registered => ?_⟩, ?_⟩
  · rw [round.before label registered, sum_met sized]
  · intro split rule number inside found
    rw [binary, binaryScores_addBinaries sized inside found, blank.binary split number]

end Constituency.MassChart
