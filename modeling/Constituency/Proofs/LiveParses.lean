import Constituency.Proofs.Admitted
import Constituency.Proofs.Intervals

/-!
The parses that survive when only live items may take part, listed in the order in which a sampler
meets them: an item as it is before its unary rules, by split and by rule.
-/

namespace Constituency.Problem

variable {α : Type}

def AllLive (live : Live) (items : List (Item × Phase)) : Prop :=
  ∀ item ∈ items, live.isLive item.1.start item.1.stop item.1.label item.2 = true

def itemsAt (parse : Parse) : Phase → List (Item × Phase)
  | .beforeUnary => parse.innerItems
  | .afterUnary => parse.items

/-- A parse of an item with at most one unary rule over each constituent, none at its top before
unary rules, whose items are all live. -/
structure Survives (problem : Problem α) (live : Live) (start stop : Nat) (label : Label)
    (phase : Phase) (parse : Parse) : Prop where
  admits : problem.Admits parse
  flat : parse.Flat
  start_eq : parse.start = start
  stop_eq : parse.stop = stop
  label_eq : parse.label = label
  bare : phase = .beforeUnary → parse.isUnary = false
  live : AllLive live (itemsAt parse phase)

def unaryUnder (problem : Problem α) (label : Label) : List (UnaryRule × Nat) :=
  problem.grammar.numberedUnary.filter fun rule => rule.1.parent = label

def binaryUnder (problem : Problem α) (label : Label) : List (BinaryRule × Nat) :=
  problem.grammar.numberedBinary.filter fun rule => rule.1.parent = label

mutual

/-- The surviving parses of an item with its unary rules. -/
def parsesAfter (problem : Problem α) (live : Live) (start stop : Nat) (label : Label) :
    List Parse :=
  if live.isLive start stop label .afterUnary then
    problem.parsesBefore live start stop label ++
      (problem.unaryUnder label).flatMap fun rule =>
        (problem.parsesBefore live start stop rule.1.child).map (.unary label)
  else []
termination_by (stop - start, 1)

def parsesBefore (problem : Problem α) (live : Live) (start stop : Nat) (label : Label) :
    List Parse :=
  if live.isLive start stop label .beforeUnary then
    if stop = start + 1 then
      if label ∈ problem.terminalsAt start then [.word label start] else []
    else
      (splits start stop).flatMap fun split =>
        if _inside : start < split ∧ split < stop then
          (problem.binaryUnder label).flatMap fun rule =>
            (problem.parsesAfter live start split rule.1.left).flatMap fun left =>
              (problem.parsesAfter live split stop rule.1.right).map (.binary label left)
        else []
  else []
termination_by (stop - start, 0)

end

variable {problem : Problem α} {live : Live} {start stop : Nat} {label : Label} {parse : Parse}

theorem mem_unaryUnder {rule : UnaryRule} {number : Nat} :
    (rule, number) ∈ problem.unaryUnder label ↔
      problem.grammar.unaryRule? number = some rule ∧ rule.parent = label := by
  simp [unaryUnder, Grammar.numberedUnary, List.mem_zipIdx_iff_getElem?, Grammar.unaryRule?,
    Numbering.get?_eq]

theorem mem_binaryUnder {rule : BinaryRule} {number : Nat} :
    (rule, number) ∈ problem.binaryUnder label ↔
      problem.grammar.binaryRule? number = some rule ∧ rule.parent = label := by
  simp [binaryUnder, Grammar.numberedBinary, List.mem_zipIdx_iff_getElem?, Grammar.binaryRule?,
    Numbering.get?_eq]

theorem mem_parsesAfter_iff : parse ∈ problem.parsesAfter live start stop label ↔
    live.isLive start stop label .afterUnary = true ∧
      (parse ∈ problem.parsesBefore live start stop label ∨
        ∃ child number below, problem.grammar.unaryRule? number = some ⟨label, child⟩ ∧
          below ∈ problem.parsesBefore live start stop child ∧ parse = .unary label below) := by
  rw [parsesAfter]
  by_cases alive : live.isLive start stop label .afterUnary = true
  · rw [if_pos alive, List.mem_append, List.mem_flatMap]
    refine ⟨fun member => ⟨alive, member.imp_right ?_⟩, fun member => member.2.imp_right ?_⟩
    · intro found
      obtain ⟨⟨⟨parent, child⟩, number⟩, rule, inside⟩ := found
      obtain ⟨found, rfl⟩ := mem_unaryUnder.mp rule
      obtain ⟨below, from_child, rfl⟩ := List.mem_map.mp inside
      exact ⟨child, number, below, found, from_child, rfl⟩
    · intro found
      obtain ⟨child, number, below, found, from_child, rfl⟩ := found
      exact ⟨(⟨label, child⟩, number), mem_unaryUnder.mpr ⟨found, rfl⟩,
        List.mem_map.mpr ⟨below, from_child, rfl⟩⟩
  · rw [if_neg alive]
    simp [alive]

theorem mem_parsesBefore_word : parse ∈ problem.parsesBefore live start (start + 1) label ↔
    live.isLive start (start + 1) label .beforeUnary = true ∧
      label ∈ problem.terminalsAt start ∧ parse = .word label start := by
  rw [parsesBefore]
  by_cases alive : live.isLive start (start + 1) label .beforeUnary = true
  · by_cases allowed : label ∈ problem.terminalsAt start
    · simp [alive, allowed]
    · simp [alive, allowed]
  · simp [alive]

theorem mem_parsesBefore_wide (wide : stop ≠ start + 1) :
    parse ∈ problem.parsesBefore live start stop label ↔
      live.isLive start stop label .beforeUnary = true ∧
        ∃ split rule number left right, (start < split ∧ split < stop) ∧
          problem.grammar.binaryRule? number = some rule ∧ rule.parent = label ∧
          left ∈ problem.parsesAfter live start split rule.left ∧
          right ∈ problem.parsesAfter live split stop rule.right ∧
          parse = .binary label left right := by
  rw [parsesBefore]
  by_cases alive : live.isLive start stop label .beforeUnary = true
  · rw [if_pos alive, if_neg wide, List.mem_flatMap]
    constructor
    · intro found
      obtain ⟨split, member, found⟩ := found
      have inside := (mem_splits start stop split).mp member
      rw [dif_pos inside, List.mem_flatMap] at found
      obtain ⟨⟨rule, number⟩, under, pairs⟩ := found
      obtain ⟨known, parent⟩ := mem_binaryUnder.mp under
      obtain ⟨left, onLeft, rest⟩ := List.mem_flatMap.mp pairs
      obtain ⟨right, onRight, rfl⟩ := List.mem_map.mp rest
      exact ⟨alive, split, rule, number, left, right, inside, known, parent, onLeft, onRight, rfl⟩
    · intro found
      obtain ⟨_, split, rule, number, left, right, inside, known, parent, onLeft, onRight,
        rfl⟩ := found
      refine ⟨split, (mem_splits start stop split).mpr inside, ?_⟩
      rw [dif_pos inside, List.mem_flatMap]
      exact ⟨(rule, number), mem_binaryUnder.mpr ⟨known, parent⟩, List.mem_flatMap.mpr
        ⟨left, onLeft, List.mem_map.mpr ⟨right, onRight, rfl⟩⟩⟩
  · rw [if_neg alive]
    simp [alive]

theorem AllLive.cons_iff {item : Item × Phase} {items : List (Item × Phase)} :
    AllLive live (item :: items) ↔
      live.isLive item.1.start item.1.stop item.1.label item.2 = true ∧ AllLive live items := by
  simp [AllLive]

theorem AllLive.append_iff {items more : List (Item × Phase)} :
    AllLive live (items ++ more) ↔ AllLive live items ∧ AllLive live more := by
  simp [AllLive, or_imp, forall_and]

theorem Survives.after_iff : Survives problem live start stop label .afterUnary parse ↔
    live.isLive start stop label .afterUnary = true ∧
      (Survives problem live start stop label .beforeUnary parse ∨
        ∃ below, problem.grammar.contains (.unary ⟨label, below.label⟩) = true ∧
          Survives problem live start stop below.label .beforeUnary below ∧
          parse = .unary label below) := by
  constructor
  · intro survives
    obtain ⟨admits, flat, rfl, rfl, rfl, _, alive⟩ := survives
    obtain ⟨outer, inner⟩ := AllLive.cons_iff.mp alive
    refine ⟨outer, ?_⟩
    cases parse with
    | word label position => exact .inl ⟨admits, flat, rfl, rfl, rfl, fun _ => rfl, inner⟩
    | unary label child =>
      exact .inr ⟨child, admits.1, ⟨admits.2, flat.2, rfl, rfl, rfl, fun _ => flat.1, inner⟩, rfl⟩
    | binary label left right =>
      exact .inl ⟨admits, flat, rfl, rfl, rfl, fun _ => rfl, inner⟩
  · intro made
    obtain ⟨outer, kept | built⟩ := made
    · obtain ⟨admits, flat, rfl, rfl, rfl, bare, alive⟩ := kept
      exact ⟨admits, flat, rfl, rfl, rfl, by simp, AllLive.cons_iff.mpr ⟨outer, alive⟩⟩
    · obtain ⟨below, known, ⟨admits, flat, rfl, rfl, _, bare, alive⟩, rfl⟩ := built
      exact ⟨⟨known, admits⟩, ⟨bare rfl, flat⟩, rfl, rfl, rfl, by simp,
        AllLive.cons_iff.mpr ⟨outer, alive⟩⟩

theorem Survives.before_word_iff (bound : start < problem.length) :
    Survives problem live start (start + 1) label .beforeUnary parse ↔
      live.isLive start (start + 1) label .beforeUnary = true ∧
        label ∈ problem.terminalsAt start ∧ parse = .word label start := by
  constructor
  · intro survives
    obtain ⟨admits, flat, rfl, stops, rfl, bare, alive⟩ := survives
    cases parse with
    | word label position => exact ⟨(AllLive.cons_iff.mp alive).1, admits.2, rfl⟩
    | unary label child => cases bare rfl
    | binary label left right =>
      obtain ⟨_, meet, onLeft, onRight⟩ := admits
      have first := onLeft.contiguous.start_lt_stop
      have second := onRight.contiguous.start_lt_stop
      simp only [Parse.start, Parse.stop] at stops
      omega
  · intro made
    obtain ⟨alive, allowed, rfl⟩ := made
    exact ⟨⟨bound, allowed⟩, trivial, rfl, rfl, rfl, fun _ => rfl,
      AllLive.cons_iff.mpr ⟨alive, by simp [AllLive]⟩⟩

theorem Survives.before_wide_iff (wide : stop ≠ start + 1) :
    Survives problem live start stop label .beforeUnary parse ↔
      live.isLive start stop label .beforeUnary = true ∧
        ∃ left right, problem.grammar.contains (.binary ⟨label, left.label, right.label⟩) = true ∧
          Survives problem live start left.stop left.label .afterUnary left ∧
          Survives problem live left.stop stop right.label .afterUnary right ∧
          parse = .binary label left right := by
  constructor
  · intro survives
    obtain ⟨admits, flat, rfl, rfl, rfl, bare, alive⟩ := survives
    cases parse with
    | word label position => exact absurd rfl wide
    | unary label child => cases bare rfl
    | binary label left right =>
      obtain ⟨known, meet, onLeft, onRight⟩ := admits
      obtain ⟨own, below⟩ := AllLive.cons_iff.mp alive
      obtain ⟨aliveLeft, aliveRight⟩ := AllLive.append_iff.mp below
      exact ⟨own, left, right, known,
        ⟨onLeft, flat.1, rfl, rfl, rfl, by simp, aliveLeft⟩,
        ⟨onRight, flat.2, meet.symm, rfl, rfl, by simp, aliveRight⟩, rfl⟩
  · intro made
    obtain ⟨own, left, right, known, ⟨onLeft, flatLeft, rfl, _, _, _, aliveLeft⟩,
      ⟨onRight, flatRight, meet, rfl, _, _, aliveRight⟩, rfl⟩ := made
    exact ⟨⟨known, meet.symm, onLeft, onRight⟩, ⟨flatLeft, flatRight⟩, rfl, rfl, rfl, fun _ => rfl,
      AllLive.cons_iff.mpr ⟨own, AllLive.append_iff.mpr ⟨aliveLeft, aliveRight⟩⟩⟩

theorem Survives.interval (survives : ∃ phase, Survives problem live start stop label phase parse) :
    start < stop ∧ stop ≤ problem.length := by
  obtain ⟨_, admits, _, rfl, rfl, _⟩ := survives
  exact ⟨admits.contiguous.start_lt_stop, admits.stop_le⟩

theorem mem_parsesBefore_iff_of_narrower (coherent : problem.grammar.Coherent)
    (bounds : start < stop ∧ stop ≤ problem.length)
    (narrower : ∀ start' stop' label', start' < stop' ∧ stop' ≤ problem.length →
      stop' - start' < stop - start → ∀ parse,
        parse ∈ problem.parsesAfter live start' stop' label' ↔
          Survives problem live start' stop' label' .afterUnary parse) :
    parse ∈ problem.parsesBefore live start stop label ↔
      Survives problem live start stop label .beforeUnary parse := by
  by_cases single : stop = start + 1
  · subst single
    rw [mem_parsesBefore_word, Survives.before_word_iff bounds.2]
  · rw [mem_parsesBefore_wide single, Survives.before_wide_iff single]
    refine and_congr_right fun _ => ⟨?_, ?_⟩
    · intro found
      obtain ⟨split, ⟨_, leftLabel, rightLabel⟩, number, left, right, inside, known, rfl, onLeft,
        onRight, rfl⟩ := found
      have first := (narrower start split _ (by omega) (by omega) left).mp onLeft
      have second := (narrower split stop _ (by omega) (by omega) right).mp onRight
      obtain rfl : left.label = leftLabel := first.label_eq
      obtain rfl : right.label = rightLabel := second.label_eq
      obtain rfl : left.stop = split := first.stop_eq
      exact ⟨left, right, (coherent.contains_binary_iff _).mpr
        ((Numbering.mem_toList_iff _ _).mpr ⟨number, known⟩), first, second, rfl⟩
    · intro found
      obtain ⟨left, right, known, first, second, rfl⟩ := found
      obtain ⟨number, found⟩ := (Numbering.mem_toList_iff _ _).mp
        ((coherent.contains_binary_iff _).mp known)
      have onLeft := Survives.interval ⟨_, first⟩
      have onRight := Survives.interval ⟨_, second⟩
      exact ⟨left.stop, _, number, left, right, ⟨onLeft.1, onRight.1⟩, found, rfl,
        (narrower start left.stop _ onLeft (by omega) left).mpr first,
        (narrower left.stop stop _ onRight (by omega) right).mpr second, rfl⟩

theorem mem_parsesAfter_iff_of_before (coherent : problem.grammar.Coherent)
    (before : ∀ label parse, parse ∈ problem.parsesBefore live start stop label ↔
      Survives problem live start stop label .beforeUnary parse) :
    parse ∈ problem.parsesAfter live start stop label ↔
      Survives problem live start stop label .afterUnary parse := by
  rw [mem_parsesAfter_iff, Survives.after_iff, before]
  refine and_congr_right fun _ => or_congr_right ⟨?_, ?_⟩
  · intro found
    obtain ⟨child, number, below, found, member, rfl⟩ := found
    have survives := (before child below).mp member
    obtain rfl : below.label = child := survives.label_eq
    exact ⟨below, (coherent.contains_unary_iff _).mpr
      ((Numbering.mem_toList_iff _ _).mpr ⟨number, found⟩), survives, rfl⟩
  · intro found
    obtain ⟨below, known, survives, rfl⟩ := found
    obtain ⟨number, found⟩ := (Numbering.mem_toList_iff _ _).mp
      ((coherent.contains_unary_iff _).mp known)
    exact ⟨below.label, number, below, found, (before _ below).mpr survives, rfl⟩

/-- The lists of parses of an item hold just those that survive. -/
theorem mem_parses_iff (coherent : problem.grammar.Coherent) (live : Live) (start stop : Nat)
    (bounds : start < stop ∧ stop ≤ problem.length) (label : Label) (parse : Parse) :
    (parse ∈ problem.parsesBefore live start stop label ↔
        Survives problem live start stop label .beforeUnary parse) ∧
      (parse ∈ problem.parsesAfter live start stop label ↔
        Survives problem live start stop label .afterUnary parse) := by
  induction width : stop - start using Nat.strong_induction_on
    generalizing start stop label parse with
  | h width ih =>
    subst width
    have before (label : Label) (parse : Parse) :
        parse ∈ problem.parsesBefore live start stop label ↔
          Survives problem live start stop label .beforeUnary parse :=
      mem_parsesBefore_iff_of_narrower coherent bounds fun start' stop' label' bounds' less parse =>
        (ih _ less start' stop' bounds' label' parse rfl).2
    exact ⟨before label parse, mem_parsesAfter_iff_of_before coherent before⟩

section Distinct

theorem nodup_flatMap_of_key {ι κ β : Type} {items : List ι} {parts : ι → List β} (key : ι → κ)
    (tag : β → κ) (distinct : (items.map key).Nodup) (each : ∀ item ∈ items, (parts item).Nodup)
    (tagged : ∀ item ∈ items, ∀ part ∈ parts item, tag part = key item) :
    (items.flatMap parts).Nodup := by
  induction items with
  | nil => exact List.nodup_nil
  | cons item items ih =>
    obtain ⟨apart, rest⟩ := List.nodup_cons.mp distinct
    rw [List.flatMap_cons, List.nodup_append]
    refine ⟨each item (by simp), ih rest (fun other member => each other (by simp [member]))
      (fun other member => tagged other (by simp [member])), ?_⟩
    intro part first _ second same
    obtain rfl := same
    obtain ⟨other, member, inside⟩ := List.mem_flatMap.mp second
    have same := (tagged item (by simp) part first).symm.trans
      (tagged other (by simp [member]) part inside)
    exact apart (same ▸ List.mem_map.mpr ⟨other, member, rfl⟩)

/-- The parses right below the top of a parse, which stands for those it lacks. -/
def below : Parse → Parse × Parse
  | .word label position => (.word label position, .word label position)
  | .unary _ child => (child, child)
  | .binary _ left right => (left, right)

theorem nodup_under {β κ : Type} {values : List β} (distinct : values.Nodup)
    {keep : β × Nat → Bool} (key : β → κ)
    (told : ∀ one ∈ values.zipIdx.filter keep, ∀ other ∈ values.zipIdx.filter keep,
      key one.1 = key other.1 → one.1 = other.1) :
    ((values.zipIdx.filter keep).map fun entry => key entry.1).Nodup := by
  have kept : ((values.zipIdx.filter keep).map Prod.fst).Nodup := by
    rw [← List.zipIdx_map_fst 0 values] at distinct
    exact (List.Sublist.map _ List.filter_sublist).nodup distinct
  have keys := kept.map_on (f := key) (by
    intro value member value' member' same
    obtain ⟨one, inside, rfl⟩ := List.mem_map.mp member
    obtain ⟨other, inside', rfl⟩ := List.mem_map.mp member'
    exact told one inside other inside' same)
  rw [List.map_map] at keys
  exact keys

theorem nodup_unaryUnder (coherent : problem.grammar.Coherent) (label : Label) :
    ((problem.unaryUnder label).map fun rule => rule.1.child).Nodup := by
  refine nodup_under coherent.unary.filed.sound.toList_nodup UnaryRule.child ?_
  rintro ⟨rule, number⟩ member ⟨rule', number'⟩ member' same
  have parents := (mem_unaryUnder.mp member).2.trans (mem_unaryUnder.mp member').2.symm
  exact congrArg₂ UnaryRule.mk parents same

theorem nodup_binaryUnder (coherent : problem.grammar.Coherent) (label : Label) :
    ((problem.binaryUnder label).map fun rule => (rule.1.left, rule.1.right)).Nodup := by
  refine nodup_under coherent.binary.sound.toList_nodup (fun rule => (rule.left, rule.right)) ?_
  rintro ⟨rule, number⟩ member ⟨rule', number'⟩ member' same
  have parents := (mem_binaryUnder.mp member).2.trans (mem_binaryUnder.mp member').2.symm
  obtain ⟨left, right⟩ := Prod.mk.inj same
  change BinaryRule.mk _ _ _ = BinaryRule.mk _ _ _
  rw [parents, left, right]

theorem nodup_binary (coherent : problem.grammar.Coherent)
    (bounds : start < stop ∧ stop ≤ problem.length) (label : Label)
    (narrower : ∀ start' stop' label', start' < stop' ∧ stop' ≤ problem.length →
      stop' - start' < stop - start → (problem.parsesAfter live start' stop' label').Nodup) :
    ((splits start stop).flatMap fun split =>
      if _inside : start < split ∧ split < stop then
        (problem.binaryUnder label).flatMap fun rule =>
          (problem.parsesAfter live start split rule.1.left).flatMap fun left =>
            (problem.parsesAfter live split stop rule.1.right).map (Parse.binary label left)
      else []).Nodup := by
  have onLeft {split : Nat} (inside : start < split ∧ split < stop) (label : Label)
      (left : Parse) :=
    (mem_parses_iff coherent live start split (by omega) label left).2
  have onRight {split : Nat} (inside : start < split ∧ split < stop) (label : Label)
      (right : Parse) :=
    (mem_parses_iff coherent live split stop (by omega) label right).2
  -- A parse shows the split by its left part, the rule by the labels of both parts, and its left
  -- part itself.
  refine nodup_flatMap_of_key (fun split => split)
    (fun parse => (below parse).1.stop) ?_ ?_ ?_
  · rw [List.map_id']
    exact splits_nodup start stop
  · intro split member
    have inside := (mem_splits start stop split).mp member
    rw [dif_pos inside]
    refine nodup_flatMap_of_key (fun rule => (rule.1.left, rule.1.right))
      (fun parse => ((below parse).1.label, (below parse).2.label))
      (nodup_binaryUnder coherent label) ?_ ?_
    · intro rule _
      refine nodup_flatMap_of_key (fun left => left)
        (fun parse => (below parse).1) ?_ ?_ ?_
      · rw [List.map_id']
        exact narrower start split _ (by omega) (by omega)
      · intro left _
        exact (narrower split stop _ (by omega) (by omega)).map fun _ _ same =>
          (Parse.binary.inj same).2.2
      · intro left _ parse found
        obtain ⟨right, _, rfl⟩ := List.mem_map.mp found
        rfl
    · intro rule _ parse found
      obtain ⟨left, fromLeft, rest⟩ := List.mem_flatMap.mp found
      obtain ⟨right, fromRight, rfl⟩ := List.mem_map.mp rest
      exact Prod.ext ((onLeft inside _ left).mp fromLeft).label_eq
        ((onRight inside _ right).mp fromRight).label_eq
  · intro split member parse found
    have inside := (mem_splits start stop split).mp member
    rw [dif_pos inside] at found
    obtain ⟨rule, _, pairs⟩ := List.mem_flatMap.mp found
    obtain ⟨left, fromLeft, rest⟩ := List.mem_flatMap.mp pairs
    obtain ⟨right, _, rfl⟩ := List.mem_map.mp rest
    exact ((onLeft inside _ left).mp fromLeft).stop_eq

theorem nodup_parses (coherent : problem.grammar.Coherent) (live : Live) (start stop : Nat)
    (bounds : start < stop ∧ stop ≤ problem.length) (label : Label) :
    (problem.parsesBefore live start stop label).Nodup ∧
      (problem.parsesAfter live start stop label).Nodup := by
  induction width : stop - start using Nat.strong_induction_on generalizing start stop label with
  | h width ih =>
    subst width
    have before (label : Label) : (problem.parsesBefore live start stop label).Nodup := by
      rw [parsesBefore]
      split
      · split
        · split <;> simp
        · exact nodup_binary coherent bounds label fun start' stop' label' bounds' less =>
            (ih _ less start' stop' bounds' label' rfl).2
      · exact List.nodup_nil
    have member (label : Label) (parse : Parse) :=
      (mem_parses_iff coherent live start stop bounds label parse).1
    refine ⟨before label, ?_⟩
    rw [parsesAfter]
    split
    · rw [List.nodup_append]
      refine ⟨before label, ?_, ?_⟩
      · refine nodup_flatMap_of_key (fun rule => rule.1.child)
          (fun parse => (below parse).1.label)
          (nodup_unaryUnder coherent label) ?_ ?_
        · intro rule _
          exact (before rule.1.child).map fun _ _ same => (Parse.unary.inj same).2
        · intro rule _ parse inside
          obtain ⟨below, from_child, rfl⟩ := List.mem_map.mp inside
          exact ((member _ below).mp from_child).label_eq
      · intro parse bare _ inside same
        obtain rfl := same
        obtain ⟨rule, _, from_child⟩ := List.mem_flatMap.mp inside
        obtain ⟨below, _, rfl⟩ := List.mem_map.mp from_child
        cases ((member label _).mp bare).bare rfl
    · exact List.nodup_nil

end Distinct

def parses (problem : Problem α) (live : Live) : List Parse :=
  if problem.length = 0 then []
  else problem.grammar.roots.toList.flatMap fun label =>
    problem.parsesAfter live 0 problem.length label

theorem mem_parses (coherent : problem.grammar.Coherent) : parse ∈ problem.parses live ↔
    problem.Parses parse ∧ parse.Flat ∧ AllLive live parse.items := by
  rw [parses]
  by_cases words : problem.length = 0
  · rw [if_pos words]
    refine ⟨(fun member => by cases member), fun ⟨parses, _⟩ => ?_⟩
    have some := parses.admits.contiguous.start_lt_stop
    rw [parses.start_eq, parses.stop_eq] at some
    omega
  · rw [if_neg words, List.mem_flatMap]
    have member (label : Label) :=
      (mem_parses_iff coherent live 0 problem.length (by omega) label parse).2
    constructor
    · intro found
      obtain ⟨label, root, inside⟩ := found
      obtain ⟨admits, flat, starts, stops, rfl, _, alive⟩ := (member label).mp inside
      exact ⟨⟨admits, starts, stops, (coherent.isRoot_iff _).mpr root⟩, flat, alive⟩
    · intro survives
      obtain ⟨⟨admits, starts, stops, root⟩, flat, alive⟩ := survives
      exact ⟨parse.label, (coherent.isRoot_iff _).mp root,
        (member _).mpr ⟨admits, flat, starts, stops, rfl, by simp, alive⟩⟩

theorem parses_nodup (coherent : problem.grammar.Coherent) (live : Live) :
    (problem.parses live).Nodup := by
  rw [parses]
  split
  · exact List.nodup_nil
  · refine nodup_flatMap_of_key (fun label => label) Parse.label ?_ ?_ ?_
    · rw [List.map_id']
      exact coherent.roots.toList_nodup
    · intro label _
      exact (nodup_parses coherent live 0 problem.length (by omega) label).2
    · intro label _ parse inside
      exact ((mem_parses_iff coherent live 0 problem.length (by omega) label parse).2.mp
        inside).label_eq

end Constituency.Problem
