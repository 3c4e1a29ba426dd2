import Mathlib.Data.List.Basic
import Constituency.Proofs.Edits

/-!
Grammars under any calls. Whatever is added to a grammar from outside, by number or by name, one by
one or as a text, its tables stay consistent and grow at their ends only, and what was there keeps
its number.
-/

namespace Constituency

namespace Numbering

variable {α : Type} [BEq α] [Hashable α]

/-- A numbering that has grown at its end, if at all. -/
structure Extends (values more : Numbering α) : Prop where
  items : values.toList <+: more.toList
  numbers : ∀ value number, values.find? value = some number → more.find? value = some number

namespace Extends

theorem refl (values : Numbering α) : values.Extends values :=
  ⟨List.prefix_refl _, fun _ _ known => known⟩

theorem trans {values more most : Numbering α} (first : values.Extends more)
    (second : more.Extends most) : values.Extends most :=
  ⟨first.items.trans second.items, fun value number known =>
    second.numbers value number (first.numbers value number known)⟩

theorem push [LawfulBEq α] [LawfulHashable α] {values : Numbering α} {value : α}
    (new : values.find? value = none) : values.Extends (values.push value) := by
  constructor
  · rw [toList_push]
    exact List.prefix_append _ _
  · intro other number known
    rw [find?_push]
    by_cases same : value = other
    · rw [← same, new] at known
      cases known
    · rwa [if_neg (by simpa using same)]

end Extends

end Numbering

namespace Grammar

variable {grammar next last : Grammar}

/-- A grammar whose tables have grown at their ends, if at all. The order of the unary rules is made
anew with each of them. -/
structure Extends (grammar next : Grammar) : Prop where
  labels : grammar.labels.Extends next.labels
  words : grammar.words.Extends next.words
  binaryRules : grammar.binaryRules.Extends next.binaryRules
  binaryWithParent : ∀ parent, grammar.binaryWithParent parent <+: next.binaryWithParent parent
  unaryRules : grammar.unaryRules.Extends next.unaryRules
  unaryWithParent : ∀ parent, grammar.unaryWithParent parent <+: next.unaryWithParent parent
  terminals : grammar.terminals.Extends next.terminals
  roots : grammar.roots.Extends next.roots
  dictionary : ∀ (word : Nat) (named : List Label), grammar.dictionary[word]? = some named →
    ∃ more, next.dictionary[word]? = some more ∧ named <+: more

namespace Extends

theorem refl (grammar : Grammar) : grammar.Extends grammar where
  labels := .refl _
  words := .refl _
  binaryRules := .refl _
  binaryWithParent _ := List.prefix_refl _
  unaryRules := .refl _
  unaryWithParent _ := List.prefix_refl _
  terminals := .refl _
  roots := .refl _
  dictionary _ named found := ⟨named, found, List.prefix_refl _⟩

theorem trans (first : grammar.Extends next) (second : next.Extends last) :
    grammar.Extends last where
  labels := first.labels.trans second.labels
  words := first.words.trans second.words
  binaryRules := first.binaryRules.trans second.binaryRules
  binaryWithParent parent := (first.binaryWithParent parent).trans (second.binaryWithParent parent)
  unaryRules := first.unaryRules.trans second.unaryRules
  unaryWithParent parent := (first.unaryWithParent parent).trans (second.unaryWithParent parent)
  terminals := first.terminals.trans second.terminals
  roots := first.roots.trans second.roots
  dictionary word named found := by
    obtain ⟨more, found', longer⟩ := first.dictionary word named found
    obtain ⟨most, found'', longer'⟩ := second.dictionary word more found'
    exact ⟨most, found'', longer.trans longer'⟩

end Extends

theorem prefix_fileUnder (index : Std.HashMap Label (Array Nat)) (parent label : Label)
    (number : Nat) :
    (index.getD label #[]).toList <+: ((fileUnder index parent number).getD label #[]).toList := by
  rw [fileUnder, Std.HashMap.getD_eq_getD_getElem?, Std.HashMap.getD_eq_getD_getElem?,
    Std.HashMap.getElem?_alter]
  by_cases same : parent = label
  · subst same
    simp
  · rw [if_neg (by simpa using same)]

theorem Change.extended (change : Change grammar next) : grammar.Extends next := by
  cases change with
  | label name new => exact { Extends.refl grammar with labels := .push new }
  | word word new => exact { Extends.refl grammar with words := .push new }
  | binary rule new =>
    exact { Extends.refl grammar with
      binaryRules := .push new
      binaryWithParent := fun parent => prefix_fileUnder _ _ parent _ }
  | unary rule new =>
    exact { Extends.refl grammar with
      unaryRules := .push new
      unaryWithParent := fun parent => prefix_fileUnder _ _ parent _ }
  | terminal label new => exact { Extends.refl grammar with terminals := .push new }
  | root label new => exact { Extends.refl grammar with roots := .push new }
  | entry word label dictionary noted =>
    refine { Extends.refl grammar with dictionary := fun other named found => ?_ }
    have noted := noted other
    by_cases same : word = other
    · subst same
      rw [if_pos rfl, found, Option.getD_some] at noted
      refine ⟨_, noted, ?_⟩
      split
      · exact List.prefix_refl _
      · exact List.prefix_append _ _
    · rw [if_neg same] at noted
      exact ⟨named, noted.trans found, List.prefix_refl _⟩

theorem Changes.extended (changes : Changes grammar next) : grammar.Extends next := by
  induction changes with
  | refl => exact .refl grammar
  | tail _ change longer => exact longer.trans change.extended

def EntriesNamed (grammar : Grammar) : Prop :=
  ∀ word : Nat, grammar.dictionary[word]? ≠ some []

theorem Change.entriesNamed (change : Change grammar next) (named : grammar.EntriesNamed) :
    next.EntriesNamed := by
  cases change with
  | entry word label dictionary noted =>
    intro other found
    have found := (noted other).symm.trans found
    split at found
    · have nothing := Option.some.inj found
      split at nothing
      · rename_i member
        rw [nothing] at member
        cases member
      · simp at nothing
    · exact named other found
  | _ => exact named

theorem Changes.entriesNamed (changes : Changes grammar next) (named : grammar.EntriesNamed) :
    next.EntriesNamed := by
  induction changes with
  | refl => exact named
  | tail _ change named => exact change.entriesNamed named

section Consistent

/-- Labels and words have numbers without gaps, one each; rules have one number each, under which
they are found, and are listed under their parents; no label is its own unary child; lists of labels
have no repetitions and agree with their sets; and the dictionary names terminal labels, at least
one for each of its words and none twice. -/
structure Consistent (grammar : Grammar) : Prop where
  label : ∀ name label,
    grammar.label? name = some label ↔ grammar.labels.get? label.toNat = some name
  label_dense : ∀ number, (grammar.labels.get? number).isSome ↔ number < grammar.labelCount
  label_room : grammar.labelCount ≤ numberLimit
  word : ∀ word number, grammar.word? word = some number ↔ grammar.words.get? number = some word
  word_dense : ∀ number, (grammar.words.get? number).isSome ↔ number < grammar.words.size
  binary : grammar.binaryRules.toList.Nodup
  binary_number : ∀ rule number,
    grammar.ruleNumber? (.binary rule) = some number ↔ grammar.binaryRule? number = some rule
  binary_ascends : ∀ parent, (grammar.binaryWithParent parent).Pairwise (· < ·)
  binary_parent : ∀ parent number, number ∈ grammar.binaryWithParent parent ↔
    ∃ rule, grammar.binaryRule? number = some rule ∧ rule.parent = parent
  unary : grammar.unaryRules.toList.Nodup
  unary_number : ∀ rule number,
    grammar.ruleNumber? (.unary rule) = some number ↔ grammar.unaryRule? number = some rule
  unary_ascends : ∀ parent, (grammar.unaryWithParent parent).Pairwise (· < ·)
  unary_parent : ∀ parent number, number ∈ grammar.unaryWithParent parent ↔
    ∃ rule, grammar.unaryRule? number = some rule ∧ rule.parent = parent
  unary_apart : ∀ rule ∈ grammar.unaryRules.toList, rule.parent ≠ rule.child
  terminals : grammar.terminals.toList.Nodup
  isTerminal : ∀ label, grammar.isTerminal label = true ↔ label ∈ grammar.terminals.toList
  roots : grammar.roots.toList.Nodup
  isRoot : ∀ label, grammar.isRoot label = true ↔ label ∈ grammar.roots.toList
  entries : ∀ (word : Nat) (named : List Label), grammar.dictionary[word]? = some named →
    named ≠ [] ∧ named.Nodup ∧ ∀ label ∈ named, grammar.isTerminal label = true

theorem isSome_get?_iff {α : Type} [BEq α] [Hashable α] (values : Numbering α) (number : Nat) :
    (values.get? number).isSome ↔ number < values.size := by
  rw [Numbering.get?_eq, ← Numbering.length_toList]
  simp

theorem numbersUnder_ascends {R : Type} (parentOf : R → Label) (rules : List R) (parent : Label) :
    (numbersUnder parentOf rules parent).Pairwise (· < ·) := by
  have ascends : (rules.zipIdx.map Prod.snd).Pairwise (· < ·) := by
    rw [List.zipIdx_map_snd]
    exact List.pairwise_lt_range'
  exact ascends.sublist (List.filter_sublist.map Prod.snd)

theorem Filed.listed {R : Type} [BEq R] [Hashable R] {parentOf : R → Label} {rules : Numbering R}
    {index : Std.HashMap Label (Array Nat)} (filed : Filed parentOf rules index) (parent : Label) :
    (index.getD parent #[]).toList.Pairwise (· < ·) ∧
      ∀ number, number ∈ (index.getD parent #[]).toList ↔
        ∃ rule, rules.get? number = some rule ∧ parentOf rule = parent := by
  rw [filed.index_eq]
  refine ⟨numbersUnder_ascends parentOf _ parent, fun number => ?_⟩
  rw [mem_numbersUnder]
  simp only [Numbering.get?_eq]

theorem Coherent.label_iff (coherent : grammar.Coherent) (name : String) (label : Label) :
    grammar.label? name = some label ↔ grammar.labels.get? label.toNat = some name := by
  rw [label?, Option.map_eq_some_iff, ← coherent.labels]
  constructor
  · intro found
    obtain ⟨number, known, rfl⟩ := found
    have small := Nat.lt_of_lt_of_le (coherent.labels.lt_size known) coherent.labels_le
    have same : number.toUInt16.toNat = number := Nat.mod_eq_of_lt small
    rwa [same]
  · intro known
    exact ⟨label.toNat, known, by simp⟩

theorem Coherent.consistent (coherent : grammar.Coherent) (named : grammar.EntriesNamed) :
    grammar.Consistent where
  label := coherent.label_iff
  label_dense := isSome_get?_iff grammar.labels
  label_room := coherent.labels_le
  word := coherent.words
  word_dense := isSome_get?_iff grammar.words
  binary := coherent.binary.sound.toList_nodup
  binary_number := coherent.binary.sound
  binary_ascends parent := (coherent.binary.listed parent).1
  binary_parent parent := (coherent.binary.listed parent).2
  unary := coherent.unary.filed.sound.toList_nodup
  unary_number := coherent.unary.filed.sound
  unary_ascends parent := (coherent.unary.filed.listed parent).1
  unary_parent parent := (coherent.unary.filed.listed parent).2
  unary_apart := coherent.unary_apart
  terminals := coherent.terminals.toList_nodup
  isTerminal := coherent.terminals.contains_iff
  roots := coherent.roots.toList_nodup
  isRoot := coherent.roots.contains_iff
  entries word labels found := by
    obtain ⟨distinct, terminal⟩ := coherent.entries word labels found
    refine ⟨?_, distinct, fun label member => ?_⟩
    · rintro rfl
      exact named word found
    · exact (coherent.terminals.contains_iff label).mpr (terminal label member)

end Consistent

section Building

variable {β : Type} {kept : Grammar → Prop} {known : List Label}

/-- What an addition keeps in whatever grammar it is made that has registered some labels. -/
def Edit.KeepsWith (kept : Grammar → Prop) (known : List Label) (edit : Edit β) : Prop :=
  ∀ grammar : Grammar, kept grammar → (∀ label ∈ known, grammar.Registered label) →
    kept (edit.grow grammar)

def Edit.Builds (known : List Label) (edit : Edit β) : Prop :=
  ∀ grammar : Grammar, grammar.Built → (∀ label ∈ known, grammar.Registered label) →
    (edit.grow grammar).Built

theorem labelCount_le_addLabel (name : String) (grammar : Grammar) :
    grammar.labelCount ≤ ((addLabel name).grow grammar).labelCount := by
  rw [Edit.grow]
  rcases run_addLabel name grammar with ⟨_, _, result⟩ | ⟨_, _, result⟩ | ⟨_, result⟩
  · rw [result]
  · rw [result, labelCount, labelCount, Numbering.size_push]
    exact Nat.le_succ _
  · rw [result]

theorem registered_addLabel (sound : grammar.labels.Sound) {name : String} {label : Label}
    (ok : ((addLabel name).run grammar).1 = .ok label) :
    ((addLabel name).grow grammar).Registered label := by
  rw [Edit.grow]
  rcases run_addLabel name grammar with ⟨number, found, result⟩ | ⟨_, _, result⟩ | ⟨_, result⟩
  · rw [result] at ok ⊢
    obtain rfl := Except.ok.inj ok
    exact Nat.lt_of_le_of_lt (Nat.mod_le _ _) (sound.lt_size found)
  · rw [result] at ok ⊢
    obtain rfl := Except.ok.inj ok
    refine Nat.lt_of_le_of_lt (Nat.mod_le _ _) ?_
    rw [labelCount, Numbering.size_push]
    exact Nat.lt_succ_self _
  · rw [result] at ok
    cases ok

theorem Edit.KeepsWith.discard {edit : Edit β} (keeps : edit.KeepsWith kept known) :
    Edit.KeepsWith kept known (discard edit) := by
  intro grammar held registered
  rw [grow_discard]
  exact keeps grammar held registered

/-- What single additions keep where the labels are registered that they give by number. -/
structure Guarded (kept : Grammar → Prop) : Prop where
  sound : ∀ {grammar}, kept grammar → grammar.labels.Sound
  label : ∀ name, (addLabel name).KeepsWith kept []
  word : ∀ text, (addWord text).KeepsWith kept []
  binary : ∀ rule, (addBinary rule).KeepsWith kept (Rule.binary rule).labels
  unary : ∀ rule, (addUnary rule).KeepsWith kept (Rule.unary rule).labels
  terminal : ∀ parent, (addTerminal parent).KeepsWith kept [parent]
  root : ∀ top, (addRoot top).KeepsWith kept [top]
  lexical : ∀ parent text, (addLexical parent text).KeepsWith kept [parent]

namespace Guarded

variable (guarded : Guarded kept)

include guarded

theorem addLabel_bind {rest : Label → Edit β}
    (keeps : ∀ label, (rest label).KeepsWith kept (known ++ [label])) (name : String) :
    Edit.KeepsWith kept known (addLabel name >>= rest) := by
  intro grammar held registered
  have named : kept ((addLabel name).grow grammar) := guarded.label name grammar held (by simp)
  refine Edit.bind_grow named fun label ok => ?_
  refine keeps label _ named fun other member => ?_
  rcases List.mem_append.mp member with old | new
  · exact Nat.lt_of_lt_of_le (registered other old) (labelCount_le_addLabel name grammar)
  · obtain rfl := List.mem_singleton.mp new
    exact registered_addLabel (guarded.sound held) ok

theorem named (addition : Text.Addition) : addition.apply.KeepsWith kept [] := by
  cases addition with
  | root label =>
    apply Edit.KeepsWith.discard
    refine guarded.addLabel_bind (fun label => ?_) label
    exact guarded.root label
  | binary parent left right =>
    apply Edit.KeepsWith.discard
    refine guarded.addLabel_bind (fun parent => ?_) parent
    refine guarded.addLabel_bind (fun left => ?_) left
    refine guarded.addLabel_bind (fun right => ?_) right
    exact guarded.binary ⟨parent, left, right⟩
  | unary parent child =>
    apply Edit.KeepsWith.discard
    refine guarded.addLabel_bind (fun parent => ?_) parent
    refine guarded.addLabel_bind (fun child => ?_) child
    exact guarded.unary ⟨parent, child⟩
  | terminal label =>
    apply Edit.KeepsWith.discard
    refine guarded.addLabel_bind (fun label => ?_) label
    exact guarded.terminal label
  | lexical label word =>
    apply Edit.KeepsWith.discard
    refine guarded.addLabel_bind (fun label => ?_) label
    exact guarded.lexical label word

theorem additions (additions : List Text.Addition) (held : kept grammar) :
    kept (Edit.grow (additions.forM Text.Addition.apply) grammar) := by
  induction additions generalizing grammar with
  | nil => exact held
  | cons addition additions ih =>
    have first := guarded.named addition grammar held (by simp)
    exact Edit.bind_grow first fun _ _ => ih first

end Guarded

theorem guarded_built : Guarded Built where
  sound built := built.coherent.labels
  label name _ built _ := .addLabel name built
  word text _ built _ := .addWord text built
  binary rule _ built registered := .addBinary rule built registered
  unary rule _ built registered := .addUnary rule built registered
  terminal parent _ built registered := .addTerminal parent built (registered parent (by simp))
  root top _ built registered := .addRoot top built (registered top (by simp))
  lexical parent text _ built registered :=
    .addLexical parent text built (registered parent (by simp))

end Building

section Calls

open Text

/-- One addition from outside, by numbers of labels or by names. -/
inductive Call
  | label (name : String)
  | word (text : String)
  | binary (rule : BinaryRule)
  | unary (rule : UnaryRule)
  | terminal (parent : Label)
  | root (top : Label)
  | lexical (parent : Label) (text : String)
  | named (addition : Addition)

namespace Call

def edit : Call → Edit Unit
  | label name => discard (addLabel name)
  | word text => discard (addWord text)
  | binary rule => discard (addBinary rule)
  | unary rule => discard (addUnary rule)
  | terminal parent => addTerminal parent
  | root top => addRoot top
  | lexical parent text => discard (addLexical parent text)
  | named addition => addition.apply

def labels : Call → List Label
  | binary rule => (Rule.binary rule).labels
  | unary rule => (Rule.unary rule).labels
  | terminal parent => [parent]
  | root top => [top]
  | lexical parent _ => [parent]
  | _ => []

/-- The labels that a call names, in the order in which it looks them up. -/
def names : Call → List String
  | label name => [name]
  | named addition => addition.names
  | _ => []

def words : Call → List String
  | word text => [text]
  | lexical _ text => [text]
  | named addition => addition.words
  | _ => []

def Permitted (grammar : Grammar) (call : Call) : Prop :=
  ∀ label ∈ call.labels, grammar.Registered label

theorem adds (call : Call) : call.edit.Adds call.names call.words := by
  cases call with
  | label name =>
    refine Edit.Adds.addLabel_bind (fun _ => ?_) name
    exact .of_run fun grammar => .inr ⟨(), grammar, rfl, .refl, rfl, rfl⟩
  | word text => exact Edit.Adds.discard (.addWord text)
  | binary rule => exact Edit.Adds.discard (.addBinary rule)
  | unary rule => exact Edit.Adds.discard (.addUnary rule)
  | terminal parent => exact Edit.Adds.addTerminal parent
  | root top => exact Edit.Adds.addRoot top
  | lexical parent text => exact Edit.Adds.discard (.addLexical parent text)
  | named addition => exact Edit.Adds.apply addition

theorem builds (call : Call) : call.edit.Builds call.labels := by
  cases call with
  | label name => exact (guarded_built.label name).discard
  | word text => exact (guarded_built.word text).discard
  | binary rule => exact (guarded_built.binary rule).discard
  | unary rule => exact (guarded_built.unary rule).discard
  | terminal parent => exact guarded_built.terminal parent
  | root top => exact guarded_built.root top
  | lexical parent text => exact (guarded_built.lexical parent text).discard
  | named addition => exact guarded_built.named addition

end Call

/-- What a grammar is asked for from outside. -/
inductive Request
  | one (call : Call)
  | text (lines : String)

/-- The additions that a list of additions tries: all of them, or those up to the first that is
refused. -/
def tried : List Addition → Grammar → List Addition
  | [], _ => []
  | addition :: rest, grammar =>
    addition ::
      match addition.apply.run grammar with
      | (.ok (), next) => tried rest next
      | (.error _, _) => []

namespace Request

def Permitted (grammar : Grammar) : Request → Prop
  | one call => call.Permitted grammar
  | text _ => True

/-- The grammar after a request, also where it fails. -/
def grow (grammar : Grammar) : Request → Grammar
  | one call => call.edit.grow grammar
  | text lines => ((addText lines).run grammar).2

def calls (grammar : Grammar) : Request → List Call
  | one call => [call]
  | text lines => (tried ((Reading.ofText lines).additions.map Prod.snd) grammar).map .named

end Request

def serve (grammar : Grammar) (requests : List Request) : Grammar :=
  requests.foldl Request.grow grammar

/-- Requests each of which gives numbers only of labels that the grammar has by then. -/
def Permitted (grammar : Grammar) : List Request → Prop
  | [] => True
  | request :: rest => request.Permitted grammar ∧ Permitted (request.grow grammar) rest

def callsOf (grammar : Grammar) : List Request → List Call
  | [] => []
  | request :: rest => request.calls grammar ++ callsOf (request.grow grammar) rest

def perform (grammar : Grammar) (calls : List Call) : Grammar :=
  calls.foldl (fun grammar call => call.edit.grow grammar) grammar

/-- The words of some calls, those aside that are refused. -/
def said (grammar : Grammar) : List Call → List String
  | [] => []
  | call :: rest =>
    (if (call.edit.run grammar).1.isOk then call.words else []) ++
      said (call.edit.grow grammar) rest

theorem perform_tried (additions : List Addition) (grammar : Grammar) :
    perform grammar ((tried additions grammar).map .named) =
      Edit.grow (additions.forM Addition.apply) grammar := by
  induction additions generalizing grammar with
  | nil => rfl
  | cons addition additions ih =>
    rw [List.forM, Edit.grow, Edit.run_bind, tried, List.map_cons, perform, List.foldl_cons]
    rcases result : addition.apply.run grammar with ⟨cause | _, next⟩
    · exact congrArg Prod.snd result
    · have first : Call.edit (.named addition) = addition.apply := rfl
      rw [first, Edit.grow, result]
      exact ih next

theorem perform_calls (grammar : Grammar) (request : Request) :
    perform grammar (request.calls grammar) = request.grow grammar := by
  cases request with
  | one call => rfl
  | text lines => exact (perform_tried _ grammar).trans (run_addText lines grammar).symm

theorem perform_append (grammar : Grammar) (calls more : List Call) :
    perform grammar (calls ++ more) = perform (perform grammar calls) more :=
  List.foldl_append

theorem perform_callsOf (grammar : Grammar) (requests : List Request) :
    perform grammar (callsOf grammar requests) = serve grammar requests := by
  induction requests generalizing grammar with
  | nil => rfl
  | cons request rest ih =>
    rw [callsOf, perform_append, perform_calls, ih]
    rfl

theorem changes_perform (grammar : Grammar) (calls : List Call) :
    Changes grammar (perform grammar calls) := by
  induction calls generalizing grammar with
  | nil => exact .refl
  | cons call calls ih => exact (call.adds.changes grammar).trans (ih _)

theorem changes_serve (grammar : Grammar) (requests : List Request) :
    Changes grammar (serve grammar requests) :=
  perform_callsOf grammar requests ▸ changes_perform grammar _

theorem seen_perform {seen spoken : List String} (held : Seen seen spoken grammar)
    (calls : List Call) :
    Seen (seen ++ calls.flatMap Call.names) (spoken ++ said grammar calls)
      (perform grammar calls) := by
  induction calls generalizing grammar seen spoken with
  | nil =>
    rw [List.flatMap_nil, said, List.append_nil, List.append_nil]
    exact held
  | cons call calls ih =>
    have rest := ih (call.adds.seen held)
    rw [List.append_assoc, List.append_assoc] at rest
    exact rest

theorem built_serve (built : grammar.Built) (requests : List Request)
    (permitted : grammar.Permitted requests) : (serve grammar requests).Built := by
  induction requests generalizing grammar with
  | nil => exact built
  | cons request rest ih =>
    obtain ⟨first, later⟩ := permitted
    refine ih ?_ later
    cases request with
    | one call => exact call.builds grammar built first
    | text lines =>
      rw [Request.grow, run_addText]
      exact guarded_built.additions _ built

/-- Whatever is asked of a grammar, its tables are consistent; labels and words have their numbers
in the order in which they were first named; whatever is asked later only extends the tables; and
a call that fails has changed nothing but the labels. -/
theorem requests_keep_grammar (requests : List Request) (permitted : empty.Permitted requests) :
    let grammar := serve empty requests
    let calls := callsOf empty requests
    grammar.Consistent ∧
      grammar.labels.toList = (calls.flatMap Call.names).eraseDups.take numberLimit ∧
      grammar.words.toList = (said empty calls).eraseDups ∧
      (∀ more, grammar.Extends (serve grammar more)) ∧
      ∀ call : Call, ∀ error, (call.edit.run grammar).1 = .error error →
        call.edit.grow grammar = { grammar with labels := (call.edit.grow grammar).labels } := by
  intro grammar calls
  have built : grammar.Built := built_serve .empty requests permitted
  have named : grammar.EntriesNamed :=
    (changes_serve empty requests).entriesNamed fun word found => by simp [empty] at found
  have seen := seen_perform .empty calls
  rw [perform_callsOf, List.nil_append, List.nil_append] at seen
  refine ⟨built.coherent.consistent named, seen.labels_eq, seen.words_eq, ?_, ?_⟩
  · exact fun more => (changes_serve grammar more).extended
  · exact fun call error => call.adds.refused grammar error

theorem requests_keep_grammar_row :
    (serve empty [.one (.label "row"), .one (.terminal 0)]).labels.toList = ["row"] ∧
      (serve empty [.one (.label "row"), .one (.terminal 0)]).Extends
        (serve empty [.one (.label "row"), .one (.terminal 0), .text "row -> row"]) := by
  have permitted : empty.Permitted [.one (.label "row"), .one (.terminal 0)] := by
    refine ⟨?_, ?_, trivial⟩
    · intro label member
      cases member
    · intro label member
      obtain rfl := List.mem_singleton.mp member
      have named : Request.grow empty (.one (.label "row")) =
          { labels := Numbering.empty.push "row" } := by
        rw [Request.grow, Call.edit, Edit.grow_discard]
        exact grow_addLabel_of_new (Numbering.find?_empty _) (by decide)
      rw [named]
      exact Nat.zero_lt_one
  obtain ⟨_, labels, _, extended, _⟩ := requests_keep_grammar _ permitted
  exact ⟨labels, extended [.text "row -> row"]⟩

end Calls

end Grammar

end Constituency
