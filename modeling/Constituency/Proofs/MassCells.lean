import Mathlib
import Constituency.Sampling.MassChart
import Constituency.Proofs.BestCells

/-!
Charts of probability mass interval by interval: what each step of the inside pass does at its own
interval, and that it leaves the other intervals alone.
-/

namespace Constituency

open Score LogScore ExtendedReal

theorem exp_foldl_logAdd (xs : List EReal) (start : EReal) :
    EReal.exp (xs.foldl logAdd start) = EReal.exp start + (xs.map EReal.exp).sum := by
  induction xs generalizing start with
  | nil => simp
  | cons x xs ih => rw [List.foldl_cons, ih, exp_logAdd, List.map_cons, List.sum_cons, add_assoc]

section Notes

variable {κ β ι : Type} [BEq κ] [Hashable κ] [LawfulBEq κ] [LawfulHashable κ]
  (key : ι → κ) (note : ι → β)

theorem getElem?_foldl_insert_of_mem {items : List ι} {item : ι} (member : item ∈ items)
    (agree : ∀ other ∈ items, key other = key item → note other = note item)
    (notes : Std.HashMap κ β) :
    (items.foldl (fun notes item => notes.insert (key item) (note item)) notes)[key item]? =
      some (note item) := by
  induction items using List.reverseRecOn with
  | nil => cases member
  | append_singleton items last ih =>
    rw [List.foldl_append, List.foldl_cons, List.foldl_nil, Std.HashMap.getElem?_insert]
    by_cases same : key last = key item
    · rw [if_pos (by simpa using same), agree last (by simp) same]
    · have earlier : item ∈ items := by
        rcases List.mem_append.mp member with old | new
        · exact old
        · exact absurd (congrArg key (List.mem_singleton.mp new)).symm same
      rw [if_neg (by simpa using same)]
      exact ih earlier fun other inside => agree other (by simp [inside])

theorem getElem?_foldl_insert_of_forall_ne {items : List ι} {place : κ}
    (apart : ∀ item ∈ items, key item ≠ place) (notes : Std.HashMap κ β) :
    (items.foldl (fun notes item => notes.insert (key item) (note item)) notes)[place]? =
      notes[place]? := by
  induction items generalizing notes with
  | nil => rfl
  | cons item items ih =>
    rw [List.foldl_cons, ih fun other member => apart other (by simp [member]),
      Std.HashMap.getElem?_insert, if_neg (by simpa using apart item (by simp))]

end Notes

namespace Table

noncomputable def pour (table : Table EReal) (start stop : Nat) (shares : List (Label × EReal)) :
    Table EReal :=
  shares.foldl (fun table share => table.join .mass start stop share.1 share.2) table

variable {table : Table EReal} {words labels : Nat} {blank : EReal} {start stop start' stop' : Nat}

theorem Sized.pour (sized : table.Sized words labels blank) (start stop : Nat)
    (shares : List (Label × EReal)) : (table.pour start stop shares).Sized words labels blank :=
  Fold.foldl_holds (fun _ (table : Table EReal) => table.Sized words labels blank) sized
    fun _ _ _ _ _ sized => sized.modify _ _ _ _

theorem Sized.get_pour (sized : table.Sized words labels blank)
    (within : start ≤ words ∧ stop ≤ words) (within' : start' ≤ words ∧ stop' ≤ words)
    {shares : List (Label × EReal)} (known : ∀ share ∈ shares, share.1.toNat < labels)
    {label : Label} (inside : label.toNat < labels) :
    (table.pour start stop shares).get start' stop' label =
      if (start, stop) = (start', stop') then
        ((shares.filter (·.1 = label)).map Prod.snd).foldl logAdd (table.get start' stop' label)
      else table.get start' stop' label := by
  rw [Table.pour]
  induction shares generalizing table with
  | nil => simp
  | cons share shares ih =>
    obtain ⟨target, amount⟩ := share
    have first := sized.get_modify within within' (known _ List.mem_cons_self) inside
      (Aggregate.mass.join · amount)
    rw [List.foldl_cons]
    refine (ih (sized.modify _ _ _ _) fun share member =>
      known share (List.mem_cons_of_mem _ member)).trans ?_
    rw [first]
    by_cases here : (start, stop) = (start', stop')
    · by_cases same : target = label
      · rw [if_pos here, if_pos ⟨here, same⟩, if_pos here, List.filter_cons_of_pos (by simpa)]
        rfl
      · rw [if_pos here, if_neg fun both => same both.2, if_pos here,
          List.filter_cons_of_neg (by simpa)]
    · rw [if_neg here, if_neg fun both => here both.1, if_neg here]

theorem Sized.setIf (sized : table.Sized words labels blank)
    (within : start ≤ words ∧ stop ≤ words) {label : Label} (inside : label.toNat < labels)
    (stays : Bool) (value : EReal) :
    (if stays then table.set start stop label value else table).Sized words labels blank ∧
      ∀ start' stop', start' ≤ words ∧ stop' ≤ words →
        ∀ other : Label, other.toNat < labels →
          (if stays then table.set start stop label value else table).get start' stop' other =
            if ((start, stop) = (start', stop') ∧ label = other) ∧ stays then value
            else table.get start' stop' other := by
  cases stays with
  | false => exact ⟨sized, fun _ _ _ _ _ => by simp⟩
  | true =>
    rw [if_pos rfl, set_eq_modify]
    refine ⟨sized.modify _ _ _ _, fun start' stop' within' other known => ?_⟩
    rw [sized.get_modify within within' inside known]
    simp only [and_true]

end Table

namespace Live

structure Sized (live : Live) (words labels : Nat) : Prop where
  before : live.before.Sized words labels false
  after : live.after.Sized words labels false

variable {live : Live} {words labels start stop start' stop' : Nat}

theorem sized_none (words labels : Nat) : (none words labels).Sized words labels :=
  ⟨Table.sized_create _ _ _, Table.sized_create _ _ _⟩

theorem set_before (live : Live) (start stop : Nat) (label : Label) (value : Bool) :
    live.set start stop label .beforeUnary value =
      { live with before := live.before.modify start stop label fun _ => value } := by
  rw [← Table.set_eq_modify]
  rfl

theorem set_after (live : Live) (start stop : Nat) (label : Label) (value : Bool) :
    live.set start stop label .afterUnary value =
      { live with after := live.after.modify start stop label fun _ => value } := by
  rw [← Table.set_eq_modify]
  rfl

theorem Sized.set (sized : live.Sized words labels) (start stop : Nat) (label : Label)
    (phase : Phase) (value : Bool) :
    (live.set start stop label phase value).Sized words labels := by
  cases phase with
  | beforeUnary =>
    rw [set_before]
    exact ⟨sized.before.modify _ _ _ _, sized.after⟩
  | afterUnary =>
    rw [set_after]
    exact ⟨sized.before, sized.after.modify _ _ _ _⟩

theorem Sized.isLive_set (sized : live.Sized words labels) (within : start ≤ words ∧ stop ≤ words)
    (within' : start' ≤ words ∧ stop' ≤ words) {label label' : Label}
    (inside : label.toNat < labels) (inside' : label'.toNat < labels) (phase phase' : Phase)
    (value : Bool) :
    (live.set start stop label phase value).isLive start' stop' label' phase' =
      if ((start, stop) = (start', stop') ∧ label = label') ∧ phase = phase' then value
      else live.isLive start' stop' label' phase' := by
  have before := sized.before.get_modify within within' inside inside' fun _ => value
  have after := sized.after.get_modify within within' inside inside' fun _ => value
  cases phase with
  | beforeUnary =>
    rw [set_before]
    cases phase' with
    | beforeUnary => simpa only [and_true, isLive, table] using before
    | afterUnary => simp [isLive, table]
  | afterUnary =>
    rw [set_after]
    cases phase' with
    | beforeUnary => simp [isLive, table]
    | afterUnary => simpa only [and_true, isLive, table] using after

end Live

namespace MassChart

variable {problem : Problem EReal} {chart next : MassChart EReal} {start stop : Nat}

structure Sized (problem : Problem EReal) (chart : MassChart EReal) : Prop where
  problem_eq : chart.problem = problem
  before : chart.before.Sized problem.length problem.grammar.labelCount ⊥
  after : chart.after.Sized problem.length problem.grammar.labelCount ⊥
  live : chart.live.Sized problem.length problem.grammar.labelCount

/-- Two charts are the same at an interval, for the labels of the grammar. -/
structure Agree (problem : Problem EReal) (chart next : MassChart EReal)
    (interval : Nat × Nat) : Prop where
  before : ∀ label, problem.grammar.Registered label →
    next.before.get interval.1 interval.2 label = chart.before.get interval.1 interval.2 label
  after : ∀ label, problem.grammar.Registered label →
    next.after.get interval.1 interval.2 label = chart.after.get interval.1 interval.2 label
  live : ∀ label, problem.grammar.Registered label → ∀ phase,
    next.live.isLive interval.1 interval.2 label phase =
      chart.live.isLive interval.1 interval.2 label phase
  unary : ∀ number : Nat, next.unaryScores[(interval.1, interval.2, number)]? =
    chart.unaryScores[(interval.1, interval.2, number)]?
  binary : ∀ split number : Nat, next.binaryScores[(interval.1, split, interval.2, number)]? =
    chart.binaryScores[(interval.1, split, interval.2, number)]?

theorem Agree.refl (problem : Problem EReal) (chart : MassChart EReal) (interval : Nat × Nat) :
    Agree problem chart chart interval :=
  ⟨fun _ _ => rfl, fun _ _ => rfl, fun _ _ _ => rfl, fun _ => rfl, fun _ _ => rfl⟩

theorem Agree.trans {last : MassChart EReal} {interval : Nat × Nat}
    (first : Agree problem chart next interval) (second : Agree problem next last interval) :
    Agree problem chart last interval :=
  ⟨fun label known => (second.before label known).trans (first.before label known),
    fun label known => (second.after label known).trans (first.after label known),
    fun label known phase => (second.live label known phase).trans (first.live label known phase),
    fun number => (second.unary number).trans (first.unary number),
    fun split number => (second.binary split number).trans (first.binary split number)⟩

/-- A step from one chart to another that works at one interval only. -/
structure Local (problem : Problem EReal) (start stop : Nat) (chart next : MassChart EReal) :
    Prop where
  sized : next.Sized problem
  others : ∀ other : Nat × Nat, other.1 ≤ problem.length ∧ other.2 ≤ problem.length →
    other ≠ (start, stop) → Agree problem chart next other

theorem Local.trans {last : MassChart EReal} (first : Local problem start stop chart next)
    (second : Local problem start stop next last) : Local problem start stop chart last :=
  ⟨second.sized, fun other within apart =>
    (first.others other within apart).trans (second.others other within apart)⟩

theorem Sized.local_pourBefore (sized : chart.Sized problem)
    (within : start ≤ problem.length ∧ stop ≤ problem.length) {shares : List (Label × EReal)}
    (known : ∀ share ∈ shares, problem.grammar.Registered share.1)
    {binaryScores : Std.HashMap (Nat × Nat × Nat × Nat) EReal}
    (noted : ∀ other : Nat × Nat, other ≠ (start, stop) → ∀ split number : Nat,
      binaryScores[(other.1, split, other.2, number)]? =
        chart.binaryScores[(other.1, split, other.2, number)]?) :
    Local problem start stop chart
      { chart with
        before := chart.before.pour start stop shares
        binaryScores := binaryScores } := by
  refine ⟨⟨sized.problem_eq, sized.before.pour _ _ _, sized.after, sized.live⟩,
    fun other within' apart => ⟨fun label registered => ?_, fun _ _ => rfl, fun _ _ _ => rfl,
      fun _ => rfl, noted other apart⟩⟩
  exact (sized.before.get_pour within within' known registered).trans (if_neg (Ne.symm apart))

section Terminals

noncomputable def terminalShares (problem : Problem EReal) (position : Nat) :
    List (Label × EReal) :=
  (problem.terminalsAt position).map fun label => (label, problem.terminalScore position label)

theorem addTerminals_eq (chart : MassChart EReal) (position : Nat) :
    chart.addTerminals position = { chart with
      before := chart.before.pour position (position + 1)
        (terminalShares chart.problem position) } := by
  have rounds (labels : List Label) (problem : Problem EReal) (chart : MassChart EReal) :
      labels.foldl (fun chart label => chart.addBefore position (position + 1) label
        (problem.terminalScore position label)) chart = { chart with
          before := chart.before.pour position (position + 1)
            (labels.map fun label => (label, problem.terminalScore position label)) } := by
    induction labels generalizing chart with
    | nil => rfl
    | cons label labels ih =>
      rw [List.foldl_cons, ih]
      rfl
  exact rounds _ _ _

end Terminals

section Binary

def meets (chart : MassChart EReal) (start stop : Nat) (offer : Nat × BinaryRule × Nat) : Bool :=
  chart.live.isLive start offer.1 offer.2.1.left .afterUnary &&
    chart.live.isLive offer.1 stop offer.2.1.right .afterUnary

noncomputable def binaryShare (chart : MassChart EReal) (start stop : Nat)
    (offer : Nat × BinaryRule × Nat) : Label × EReal :=
  (offer.2.1.parent, chart.after.get start offer.1 offer.2.1.left +
    chart.after.get offer.1 stop offer.2.1.right +
      binaryScore chart.problem start offer.1 stop offer.2.1 offer.2.2)

def met (chart : MassChart EReal) (start stop : Nat) : List (Nat × BinaryRule × Nat) :=
  (BestChart.offers chart.problem start stop).filter (chart.meets start stop)

theorem addBinaries_eq (chart : MassChart EReal) (start stop : Nat) :
    chart.addBinaries start stop = { chart with
      before := chart.before.pour start stop
        ((chart.met start stop).map (chart.binaryShare start stop))
      binaryScores := (chart.met start stop).foldl (fun notes offer =>
        notes.insert (start, offer.1, stop, offer.2.2)
          (binaryScore chart.problem start offer.1 stop offer.2.1 offer.2.2))
        chart.binaryScores } := by
  have rounds (offers : List (Nat × BinaryRule × Nat)) (chart : MassChart EReal) :
      offers.foldl (fun chart offer => addBinary start offer.1 stop chart offer.2) chart =
        { chart with
          before := chart.before.pour start stop
            ((offers.filter (chart.meets start stop)).map (chart.binaryShare start stop))
          binaryScores := (offers.filter (chart.meets start stop)).foldl (fun notes offer =>
            notes.insert (start, offer.1, stop, offer.2.2)
              (binaryScore chart.problem start offer.1 stop offer.2.1 offer.2.2))
            chart.binaryScores } := by
    induction offers generalizing chart with
    | nil => rfl
    | cons offer offers ih =>
      rw [List.foldl_cons, ih]
      by_cases met : chart.meets start stop offer = true
      · have added : addBinary start offer.1 stop chart offer.2 = { chart with
            before := chart.before.pour start stop [chart.binaryShare start stop offer]
            binaryScores := chart.binaryScores.insert (start, offer.1, stop, offer.2.2)
              (binaryScore chart.problem start offer.1 stop offer.2.1 offer.2.2) } :=
          if_pos met
        rw [added, List.filter_cons_of_pos met]
        rfl
      · have passed : addBinary start offer.1 stop chart offer.2 = chart := if_neg met
        rw [passed, List.filter_cons_of_neg met]
  rw [addBinaries, met, BestChart.offers, ← rounds, List.foldl_flatMap]
  simp only [List.foldl_map]

end Binary

section Unary

noncomputable def unaryShare (chart : MassChart EReal) (start stop : Nat)
    (rule : UnaryRule × Nat) : Label × EReal :=
  (rule.1.parent, chart.before.get start stop rule.1.child +
    chart.problem.unaryScore start stop rule.1 rule.2)

def carries (chart : MassChart EReal) (start stop : Nat) (rule : UnaryRule × Nat) : Bool :=
  chart.live.isLive start stop rule.1.child .beforeUnary

def carried (chart : MassChart EReal) (start stop : Nat) : List (UnaryRule × Nat) :=
  chart.problem.grammar.numberedUnary.filter (chart.carries start stop)

noncomputable def addUnaries (chart : MassChart EReal) (start stop : Nat) : MassChart EReal :=
  chart.problem.grammar.numberedUnary.foldl (addUnary start stop) chart

theorem addUnaries_eq (chart : MassChart EReal) (start stop : Nat) :
    chart.addUnaries start stop = { chart with
      after := chart.after.pour start stop
        ((chart.carried start stop).map (chart.unaryShare start stop))
      unaryScores := (chart.carried start stop).foldl (fun notes rule =>
        notes.insert (start, stop, rule.2) (chart.problem.unaryScore start stop rule.1 rule.2))
        chart.unaryScores } := by
  have rounds (rules : List (UnaryRule × Nat)) (chart : MassChart EReal) :
      rules.foldl (addUnary start stop) chart = { chart with
        after := chart.after.pour start stop
          ((rules.filter (chart.carries start stop)).map (chart.unaryShare start stop))
        unaryScores := (rules.filter (chart.carries start stop)).foldl (fun notes rule =>
          notes.insert (start, stop, rule.2)
            (chart.problem.unaryScore start stop rule.1 rule.2)) chart.unaryScores } := by
    induction rules generalizing chart with
    | nil => rfl
    | cons rule rules ih =>
      rw [List.foldl_cons, ih]
      by_cases live : chart.carries start stop rule = true
      · have added : addUnary start stop chart rule = { chart with
            after := chart.after.pour start stop [chart.unaryShare start stop rule]
            unaryScores := chart.unaryScores.insert (start, stop, rule.2)
              (chart.problem.unaryScore start stop rule.1 rule.2) } := if_pos live
        rw [added, List.filter_cons_of_pos live]
        rfl
      · have passed : addUnary start stop chart rule = chart := if_neg live
        rw [passed, List.filter_cons_of_neg live]
  exact rounds _ _

theorem registered_of_share
    (known : ∀ rule ∈ chart.carried start stop, problem.grammar.Registered rule.1.parent) :
    ∀ share ∈ (chart.carried start stop).map (chart.unaryShare start stop),
      problem.grammar.Registered share.1 := by
  intro share member
  obtain ⟨rule, inside, rfl⟩ := List.mem_map.mp member
  exact known rule inside

theorem Sized.local_addUnaries (sized : chart.Sized problem)
    (within : start ≤ problem.length ∧ stop ≤ problem.length)
    (known : ∀ rule ∈ chart.carried start stop, problem.grammar.Registered rule.1.parent) :
    Local problem start stop chart (chart.addUnaries start stop) := by
  rw [addUnaries_eq]
  refine ⟨⟨sized.problem_eq, sized.before, sized.after.pour _ _ _, sized.live⟩,
    fun other within' apart => ⟨fun _ _ => rfl, fun label registered => ?_, fun _ _ _ => rfl,
      fun number => ?_, fun _ _ => rfl⟩⟩
  · exact (sized.after.get_pour within within' (registered_of_share known) registered).trans
      (if_neg (Ne.symm apart))
  · refine getElem?_foldl_insert_of_forall_ne _ _ (fun rule _ same => apart ?_) _
    rw [Prod.mk.injEq, Prod.mk.injEq] at same
    exact Prod.ext same.1.symm same.2.1.symm

end Unary

section Kept

variable {seen : List Label} {label : Label} {floor : EReal}

theorem Sized.below_eq (sized : chart.Sized problem)
    (fits : problem.grammar.labelCount < numberLimit) :
    Label.below chart.problem.grammar.labelCount.toUInt16 = problem.grammar.allLabels := by
  rw [sized.problem_eq]
  exact Label.below_toUInt16 fits

/-- What cutting off an interval without unary rules leaves. -/
structure KeptBefore (problem : Problem EReal) (floor : EReal) (start stop : Nat)
    (seen : List Label) (chart next : MassChart EReal) : Prop where
  isLocal : Local problem start stop chart next
  before : next.before = chart.before
  unary : next.unaryScores = chart.unaryScores
  binary : next.binaryScores = chart.binaryScores
  after : ∀ label, problem.grammar.Registered label → next.after.get start stop label =
    if label ∈ seen ∧ survives floor (chart.before.get start stop label) then
      chart.before.get start stop label
    else chart.after.get start stop label
  live : ∀ label ∈ seen, problem.grammar.Registered label →
    next.live.isLive start stop label .beforeUnary =
      survives floor (chart.before.get start stop label)

theorem KeptBefore.step (within : start ≤ problem.length ∧ stop ≤ problem.length)
    (kept : KeptBefore problem floor start stop seen chart next)
    (registered : problem.grammar.Registered label) :
    KeptBefore problem floor start stop (seen ++ [label]) chart
      { next with
        after :=
          if survives floor (next.before.get start stop label) then
            next.after.set start stop label (next.before.get start stop label)
          else next.after
        live := next.live.set start stop label .beforeUnary
          (survives floor (next.before.get start stop label)) } := by
  have sized := kept.isLocal.sized
  obtain ⟨sized', get⟩ := sized.after.setIf within registered
    (survives floor (next.before.get start stop label)) (next.before.get start stop label)
  refine ⟨kept.isLocal.trans ⟨⟨sized.problem_eq, sized.before, sized',
    sized.live.set start stop label .beforeUnary _⟩, fun other within' apart => ⟨fun _ _ => rfl,
      fun other' known => ?_, fun other' known phase => ?_, fun _ => rfl, fun _ _ => rfl⟩⟩,
    kept.before, kept.unary, kept.binary, fun other known => ?_, fun other member known => ?_⟩
  · rw [get _ _ within' _ known, if_neg fun both => apart both.1.1.symm]
  · rw [sized.live.isLive_set within within' registered known,
      if_neg fun both => apart both.1.1.symm]
  · rw [get _ _ within _ known, kept.after _ known, kept.before]
    by_cases same : label = other
    · subst same
      by_cases stays : survives floor (chart.before.get start stop label) = true
      · simp [stays]
      · simp [stays]
    · simp [same, Ne.symm same]
  · rw [sized.live.isLive_set within within registered known]
    by_cases same : label = other
    · subst same
      simp [kept.before]
    · have earlier : other ∈ seen := by simpa [Ne.symm same] using member
      simpa [same] using kept.live other earlier known

theorem keptBefore_keepBefore (fits : problem.grammar.labelCount < numberLimit)
    (sized : chart.Sized problem) (within : start ≤ problem.length ∧ stop ≤ problem.length)
    (threshold : EReal) :
    KeptBefore problem (chart.before.largest start stop - threshold) start stop
      problem.grammar.allLabels chart (keepBefore threshold chart start stop) := by
  generalize floored : chart.before.largest start stop - threshold = floor
  rw [keepBefore, sized.below_eq fits]
  simp only [floored]
  refine Fold.foldl_holds (fun seen next => KeptBefore problem floor start stop seen chart next)
    ⟨⟨sized, fun other _ _ => .refl _ _ _⟩, rfl, rfl, rfl, by simp, by simp⟩ ?_
  intro earlier label later next whole kept
  exact kept.step within (Grammar.mem_allLabels.mp (by simp [whole]))

/-- What cutting off an interval with unary rules leaves. -/
structure KeptAfter (problem : Problem EReal) (floor : EReal) (start stop : Nat)
    (seen : List Label) (chart next : MassChart EReal) : Prop where
  isLocal : Local problem start stop chart next
  before : next.before = chart.before
  after : next.after = chart.after
  unary : next.unaryScores = chart.unaryScores
  binary : next.binaryScores = chart.binaryScores
  live : ∀ label, problem.grammar.Registered label → ∀ phase,
    next.live.isLive start stop label phase =
      if label ∈ seen ∧ phase = .afterUnary then survives floor (chart.after.get start stop label)
      else chart.live.isLive start stop label phase

theorem KeptAfter.step (within : start ≤ problem.length ∧ stop ≤ problem.length)
    (kept : KeptAfter problem floor start stop seen chart next)
    (registered : problem.grammar.Registered label) :
    KeptAfter problem floor start stop (seen ++ [label]) chart
      { next with
        live := next.live.set start stop label .afterUnary
          (survives floor (next.after.get start stop label)) } := by
  have sized := kept.isLocal.sized
  refine ⟨kept.isLocal.trans ⟨⟨sized.problem_eq, sized.before, sized.after,
    sized.live.set start stop label .afterUnary _⟩, fun other within' apart =>
      ⟨fun _ _ => rfl, fun _ _ => rfl, fun other' known phase => ?_, fun _ => rfl,
        fun _ _ => rfl⟩⟩,
    kept.before, kept.after, kept.unary, kept.binary, fun other known phase => ?_⟩
  · rw [sized.live.isLive_set within within' registered known,
      if_neg fun both => apart both.1.1.symm]
  · rw [sized.live.isLive_set within within registered known, kept.live other known, kept.after]
    by_cases same : label = other
    · subst same
      by_cases last : Phase.afterUnary = phase
      · simp [← last]
      · simp [last, Ne.symm last]
    · simp [same, Ne.symm same]

theorem keptAfter_keepAfter (fits : problem.grammar.labelCount < numberLimit)
    (sized : chart.Sized problem) (within : start ≤ problem.length ∧ stop ≤ problem.length)
    (threshold : EReal) :
    KeptAfter problem (chart.after.largest start stop - threshold) start stop
      problem.grammar.allLabels chart (keepAfter threshold chart start stop) := by
  generalize floored : chart.after.largest start stop - threshold = floor
  rw [keepAfter, sized.below_eq fits]
  simp only [floored]
  refine Fold.foldl_holds (fun seen next => KeptAfter problem floor start stop seen chart next)
    ⟨⟨sized, fun other _ _ => .refl _ _ _⟩, rfl, rfl, rfl, rfl, by simp⟩ ?_
  intro earlier label later next whole kept
  exact kept.step within (Grammar.mem_allLabels.mp (by simp [whole]))

end Kept

end MassChart

end Constituency
