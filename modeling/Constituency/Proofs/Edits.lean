import Mathlib.Data.List.Basic
import Mathlib.Logic.Relation
import Constituency.Proofs.Built
import Constituency.Text.Reading

/-!
What additions change. Every addition, alone or as part of another, is a sequence of changes of few
kinds, each of which puts something new at the end of one table; an addition that is refused has
changed nothing but the labels.
-/

namespace Constituency

namespace Text.Addition

/-- The labels that an addition names, in the order in which it looks them up. -/
def names : Addition → List String
  | root label => [label]
  | binary parent left right => [parent, left, right]
  | unary parent child => [parent, child]
  | terminal label => [label]
  | lexical label _ => [label]

def words : Addition → List String
  | lexical _ word => [word]
  | _ => []

end Text.Addition

namespace Grammar

variable {ε ε' β γ : Type} {grammar next last : Grammar}

namespace Edit

theorem run_bind (first : ExceptT ε (StateM Grammar) β) (rest : β → ExceptT ε (StateM Grammar) γ)
    (grammar : Grammar) :
    (first >>= rest).run grammar =
      match first.run grammar with
      | (.ok value, next) => (rest value).run next
      | (.error error, next) => (.error error, next) := by
  change ExceptT.bindCont rest (first.run grammar).1 (first.run grammar).2 = _
  rcases first.run grammar with ⟨_ | _, _⟩
  · rfl
  · rfl

theorem run_discard (edit : ExceptT ε (StateM Grammar) β) (grammar : Grammar) :
    (discard edit : ExceptT ε (StateM Grammar) Unit).run grammar =
      ((edit.run grammar).1.map fun _ => (), (edit.run grammar).2) := by
  have opened : (discard edit : ExceptT ε (StateM Grammar) Unit) = edit >>= fun _ => pure () := rfl
  rw [opened, run_bind]
  rcases edit.run grammar with ⟨_ | _, _⟩
  · rfl
  · rfl

theorem grow_discard (edit : Edit β) (grammar : Grammar) :
    Edit.grow (discard edit) grammar = edit.grow grammar := by
  rw [grow, run_discard]
  rfl

theorem run_adapt (change : ε → ε') (edit : ExceptT ε (StateM Grammar) β) (grammar : Grammar) :
    (edit.adapt change).run grammar =
      ((edit.run grammar).1.mapError change, (edit.run grammar).2) := rfl

section Results

variable {first edit : ExceptT ε (StateM Grammar) β} {rest : β → ExceptT ε (StateM Grammar) γ}

theorem run_bind_eq_error {error : ε} (failed : (first >>= rest).run grammar = (.error error, next)) :
    first.run grammar = (.error error, next) ∨
      ∃ value mid, first.run grammar = (.ok value, mid) ∧
        (rest value).run mid = (.error error, next) := by
  rw [run_bind] at failed
  rcases result : first.run grammar with ⟨other | value, mid⟩
  · rw [result] at failed
    obtain ⟨same, rfl⟩ := Prod.mk.inj failed
    obtain rfl := Except.error.inj same
    exact .inl rfl
  · rw [result] at failed
    exact .inr ⟨value, mid, rfl, failed⟩

theorem run_bind_eq_ok {value : γ} (done : (first >>= rest).run grammar = (.ok value, next)) :
    ∃ between mid, first.run grammar = (.ok between, mid) ∧
      (rest between).run mid = (.ok value, next) := by
  rw [run_bind] at done
  rcases result : first.run grammar with ⟨error | between, mid⟩
  · rw [result] at done
    cases (Prod.mk.inj done).1
  · rw [result] at done
    exact ⟨between, mid, rfl, done⟩

theorem run_adapt_eq_error {change : ε → ε'} {error : ε'}
    (failed : (edit.adapt change).run grammar = (.error error, next)) :
    ∃ cause, edit.run grammar = (.error cause, next) ∧ change cause = error := by
  rw [run_adapt] at failed
  rcases result : edit.run grammar with ⟨cause | value, last⟩
  · rw [result] at failed
    obtain ⟨same, rfl⟩ := Prod.mk.inj failed
    exact ⟨cause, rfl, Except.error.inj same⟩
  · rw [result] at failed
    cases (Prod.mk.inj failed).1

theorem run_adapt_eq_ok {change : ε → ε'} {value : β}
    (done : (edit.adapt change).run grammar = (.ok value, next)) :
    edit.run grammar = (.ok value, next) := by
  rw [run_adapt] at done
  rcases result : edit.run grammar with ⟨cause | other, last⟩
  · rw [result] at done
    cases (Prod.mk.inj done).1
  · rw [result] at done
    obtain ⟨same, rfl⟩ := Prod.mk.inj done
    obtain rfl := Except.ok.inj same
    rfl

end Results

end Edit

/-- One thing put at the end of a table, with what is filed about it. -/
inductive Change (grammar : Grammar) : Grammar → Prop
  | label (name : String) (new : grammar.labels.find? name = none) :
    Change grammar { grammar with labels := grammar.labels.push name }
  | word (word : String) (new : grammar.words.find? word = none) :
    Change grammar { grammar with words := grammar.words.push word }
  | binary (rule : BinaryRule) (new : grammar.binaryRules.find? rule = none) :
    Change grammar
      { grammar with
        binaryRules := grammar.binaryRules.push rule
        binaryByParent :=
          fileUnder grammar.binaryByParent rule.parent grammar.binaryRules.size }
  | unary (rule : UnaryRule) (new : grammar.unaryRules.find? rule = none) :
    Change grammar (reorder
      { grammar with
        unaryRules := grammar.unaryRules.push rule
        unaryByParent :=
          fileUnder grammar.unaryByParent rule.parent grammar.unaryRules.size })
  | terminal (label : Label) (new : grammar.terminals.find? label = none) :
    Change grammar { grammar with terminals := grammar.terminals.push label }
  | root (label : Label) (new : grammar.roots.find? label = none) :
    Change grammar { grammar with roots := grammar.roots.push label }
  | entry (word : Nat) (label : Label) (dictionary : Std.HashMap Nat (List Label))
    (noted : ∀ other, dictionary[other]? =
      if word = other then
        let named := (grammar.dictionary[word]?).getD []
        some (if label ∈ named then named else named ++ [label])
      else grammar.dictionary[other]?) :
    Change grammar { grammar with dictionary := dictionary }

abbrev Changes : Grammar → Grammar → Prop := Relation.ReflTransGen Change

theorem changes_addTerminal (label : Label) (grammar : Grammar) :
    Changes grammar ((addTerminal label).grow grammar) := by
  rw [grow_addTerminal, Numbering.insert]
  split
  · exact .refl
  · rename_i new
    rw [Numbering.contains_eq_isSome_find?, Option.not_isSome_iff_eq_none] at new
    exact .single (.terminal label new)

theorem changes_addRoot (label : Label) (grammar : Grammar) :
    Changes grammar ((addRoot label).grow grammar) := by
  rw [grow_addRoot, Numbering.insert]
  split
  · exact .refl
  · rename_i new
    rw [Numbering.contains_eq_isSome_find?, Option.not_isSome_iff_eq_none] at new
    exact .single (.root label new)

theorem getElem?_addEntry (word other : Nat) (label : Label) (grammar : Grammar) :
    ((addEntry word label).grow grammar).dictionary[other]? =
      if word = other then
        let named := (grammar.dictionary[word]?).getD []
        some (if label ∈ named then named else named ++ [label])
      else grammar.dictionary[other]? := by
  change (grammar.dictionary.alter word _)[other]? = _
  by_cases same : word = other
  · subst same
    rw [Std.HashMap.getElem?_alter_self, if_pos rfl]
    simp
  · rw [Std.HashMap.getElem?_alter, if_neg (by simpa using same), if_neg same]

theorem change_addEntry (word : Nat) (label : Label) (grammar : Grammar) :
    Change grammar ((addEntry word label).grow grammar) :=
  .entry word label _ fun other => getElem?_addEntry word other label grammar

theorem run_addLabel_of_known {name : String} {number : Nat}
    (known : grammar.labels.find? name = some number) :
    (addLabel name).run grammar = (.ok number.toUInt16, grammar) := by
  simp only [addLabel, ExceptT.run, ExceptT.mk, known]

theorem run_addLabel_of_new {name : String} (new : grammar.labels.find? name = none)
    (room : grammar.labels.size < numberLimit) :
    (addLabel name).run grammar = (.ok grammar.labels.size.toUInt16,
      { grammar with labels := grammar.labels.push name }) := by
  simp only [addLabel, ExceptT.run, ExceptT.mk, new, if_neg (Nat.not_le.mpr room)]

theorem run_addLabel (name : String) (grammar : Grammar) :
    (∃ number, grammar.labels.find? name = some number ∧
        (addLabel name).run grammar = (.ok number.toUInt16, grammar)) ∨
      (grammar.labels.find? name = none ∧ grammar.labels.size < numberLimit ∧
        (addLabel name).run grammar = (.ok grammar.labels.size.toUInt16,
          { grammar with labels := grammar.labels.push name })) ∨
      numberLimit ≤ grammar.labels.size ∧
        (addLabel name).run grammar = (.error .tooManyLabels, grammar) := by
  cases found : grammar.labels.find? name with
  | some number => exact .inl ⟨number, rfl, run_addLabel_of_known found⟩
  | none =>
    by_cases room : grammar.labels.size < numberLimit
    · exact .inr (.inl ⟨rfl, room, run_addLabel_of_new found room⟩)
    · refine .inr (.inr ⟨Nat.not_lt.mp room, ?_⟩)
      simp only [addLabel, ExceptT.run, ExceptT.mk, found, if_pos (Nat.not_lt.mp room)]

theorem run_addWord_of_known {word : String} {number : Nat}
    (known : grammar.words.find? word = some number) :
    (addWord word).run grammar = (.ok number, grammar) := by
  simp only [addWord, ExceptT.run, ExceptT.mk, known]

theorem run_addWord_of_new {word : String} (new : grammar.words.find? word = none) :
    (addWord word).run grammar = (.ok grammar.words.size,
      { grammar with words := grammar.words.push word }) := by
  simp only [addWord, ExceptT.run, ExceptT.mk, new]

theorem run_addWord (word : String) (grammar : Grammar) :
    (∃ number, grammar.words.find? word = some number ∧
        (addWord word).run grammar = (.ok number, grammar)) ∨
      grammar.words.find? word = none ∧
        (addWord word).run grammar = (.ok grammar.words.size,
          { grammar with words := grammar.words.push word }) := by
  cases found : grammar.words.find? word with
  | some number => exact .inl ⟨number, rfl, run_addWord_of_known found⟩
  | none => exact .inr ⟨rfl, run_addWord_of_new found⟩

theorem exists_run_addWord (word : String) (grammar : Grammar) :
    ∃ number, ((addWord word).run grammar).1 = .ok number := by
  rcases run_addWord word grammar with ⟨number, _, result⟩ | ⟨_, result⟩
  · exact ⟨number, by rw [result]⟩
  · exact ⟨grammar.words.size, by rw [result]⟩

theorem run_addLexical (label : Label) (word : String) (grammar : Grammar) :
    ∃ number, (addLexical label word).run grammar = (.ok number,
      (addEntry number label).grow ((addWord word).grow ((addTerminal label).grow grammar))) := by
  obtain ⟨number, ok⟩ := exists_run_addWord word ((addTerminal label).grow grammar)
  refine ⟨number, ?_⟩
  change (addWord word >>= fun number => addEntry number label >>= fun _ => pure number).run
    ((addTerminal label).grow grammar) = _
  have said : (addWord word).run ((addTerminal label).grow grammar) =
      (.ok number, (addWord word).grow ((addTerminal label).grow grammar)) :=
    Prod.ext ok rfl
  rw [Edit.run_bind, said]
  rfl

theorem changes_addWord (word : String) (grammar : Grammar) :
    Changes grammar ((addWord word).grow grammar) := by
  rw [Edit.grow]
  rcases run_addWord word grammar with ⟨number, _, result⟩ | ⟨new, result⟩
  · rw [result]
  · rw [result]
    exact .single (.word word new)

/-- The labels are the names seen so far and the words those said, each where it first came; labels
only as long as there is room for them. -/
structure Seen (names words : List String) (grammar : Grammar) : Prop where
  labels_sound : grammar.labels.Sound
  labels_eq : grammar.labels.toList = names.eraseDups.take numberLimit
  words_sound : grammar.words.Sound
  words_eq : grammar.words.toList = words.eraseDups

theorem eraseDups_concat_of_mem {items : List String} {item : String} (known : item ∈ items) :
    (items ++ [item]).eraseDups = items.eraseDups := by
  rw [List.eraseDups_append]
  simp [List.removeAll, known]

theorem eraseDups_concat_of_not_mem {items : List String} {item : String} (new : item ∉ items) :
    (items ++ [item]).eraseDups = items.eraseDups ++ [item] := by
  rw [List.eraseDups_append]
  simp [List.removeAll, new, List.eraseDups_cons]

namespace Seen

variable {names words : List String}

theorem empty : Seen [] [] empty := ⟨.empty, rfl, .empty, rfl⟩

theorem congr (seen : Seen names words grammar) (labels : next.labels = grammar.labels)
    (same : next.words = grammar.words) : Seen names words next := by
  obtain ⟨sound, labels_eq, sound', words_eq⟩ := seen
  rw [← labels] at sound labels_eq
  rw [← same] at sound' words_eq
  exact ⟨sound, labels_eq, sound', words_eq⟩

theorem of_full (seen : Seen names words grammar) (full : numberLimit ≤ grammar.labels.size)
    (more : List String) : Seen (names ++ more) words grammar := by
  refine { seen with labels_eq := ?_ }
  have many : numberLimit ≤ names.eraseDups.length := by
    rw [← Numbering.length_toList, seen.labels_eq, List.length_take] at full
    exact (Nat.le_min.mp full).2
  rw [List.eraseDups_append, List.take_append_of_le_length many]
  exact seen.labels_eq

theorem of_known (seen : Seen names words grammar) {name : String} {number : Nat}
    (known : grammar.labels.find? name = some number) : Seen (names ++ [name]) words grammar := by
  refine { seen with labels_eq := ?_ }
  have member : name ∈ grammar.labels.toList :=
    (seen.labels_sound.find?_isSome_iff name).mp (known ▸ rfl)
  rw [seen.labels_eq] at member
  rw [eraseDups_concat_of_mem (List.mem_eraseDups.mp (List.mem_of_mem_take member))]
  exact seen.labels_eq

theorem push_label (seen : Seen names words grammar) {name : String}
    (new : grammar.labels.find? name = none) (room : grammar.labels.size < numberLimit) :
    Seen (names ++ [name]) words { grammar with labels := grammar.labels.push name } := by
  have whole : names.eraseDups.take numberLimit = names.eraseDups := by
    apply List.take_of_length_le
    rw [← Numbering.length_toList, seen.labels_eq, List.length_take] at room
    omega
  have labels_eq := seen.labels_eq
  rw [whole] at labels_eq
  have unseen : name ∉ names := by
    rw [← Option.not_isSome_iff_eq_none, seen.labels_sound.find?_isSome_iff, labels_eq] at new
    exact fun member => new (List.mem_eraseDups.mpr member)
  refine ⟨seen.labels_sound.push new, ?_, seen.words_sound, seen.words_eq⟩
  rw [Numbering.toList_push, labels_eq, eraseDups_concat_of_not_mem unseen, List.take_of_length_le]
  rw [List.length_append, ← labels_eq, Numbering.length_toList]
  exact room

theorem of_known_word (seen : Seen names words grammar) {word : String} {number : Nat}
    (known : grammar.words.find? word = some number) : Seen names (words ++ [word]) grammar := by
  refine { seen with words_eq := ?_ }
  have member : word ∈ grammar.words.toList :=
    (seen.words_sound.find?_isSome_iff word).mp (known ▸ rfl)
  rw [seen.words_eq] at member
  rw [eraseDups_concat_of_mem (List.mem_eraseDups.mp member)]
  exact seen.words_eq

theorem push_word (seen : Seen names words grammar) {word : String}
    (new : grammar.words.find? word = none) :
    Seen names (words ++ [word]) { grammar with words := grammar.words.push word } := by
  have unsaid : word ∉ words := by
    rw [← Option.not_isSome_iff_eq_none, seen.words_sound.find?_isSome_iff, seen.words_eq] at new
    exact fun member => new (List.mem_eraseDups.mpr member)
  refine ⟨seen.labels_sound, seen.labels_eq, seen.words_sound.push new, ?_⟩
  rw [Numbering.toList_push, seen.words_eq, eraseDups_concat_of_not_mem unsaid]

theorem addWord (seen : Seen names words grammar) (word : String) :
    Seen names (words ++ [word]) ((addWord word).grow grammar) := by
  rw [Edit.grow]
  rcases run_addWord word grammar with ⟨number, known, result⟩ | ⟨new, result⟩
  · rw [result]
    exact seen.of_known_word known
  · rw [result]
    exact seen.push_word new

end Seen

/-- What an addition does that looks up some names one after another, as labels, and then adds
words: refused or not it makes changes, and refused it has made none but to the labels. -/
structure Edit.Adds (names words : List String) (edit : Edit β) : Prop where
  changes : ∀ grammar, Changes grammar (edit.grow grammar)
  refused : ∀ grammar error, (edit.run grammar).1 = .error error →
    edit.grow grammar = { grammar with labels := (edit.grow grammar).labels }
  seen : ∀ {grammar seen said}, Seen seen said grammar →
    Seen (seen ++ names) (said ++ if (edit.run grammar).1.isOk then words else [])
      (edit.grow grammar)

namespace Edit.Adds

theorem of_run {edit : Edit β}
    (run : ∀ grammar, (∃ error, edit.run grammar = (.error error, grammar)) ∨
      ∃ value next, edit.run grammar = (.ok value, next) ∧ Changes grammar next ∧
        next.labels = grammar.labels ∧ next.words = grammar.words) :
    edit.Adds [] [] := by
  constructor
  · intro grammar
    rw [grow]
    rcases run grammar with ⟨error, result⟩ | ⟨value, next, result, changes, _⟩
    · rw [result]
    · rw [result]
      exact changes
  · intro grammar error refused
    rw [grow]
    rcases run grammar with ⟨error, result⟩ | ⟨value, next, result, _⟩
    · rw [result]
    · rw [result] at refused
      cases refused
  · intro grammar seen said held
    rw [grow, ite_self, List.append_nil, List.append_nil]
    rcases run grammar with ⟨error, result⟩ | ⟨value, next, result, _, labels, words⟩
    · rw [result]
      exact held
    · rw [result]
      exact held.congr labels words

theorem addLabel_bind {names words : List String} {rest : Label → Edit β}
    (adds : ∀ label, (rest label).Adds names words) (name : String) :
    Adds (name :: names) words (addLabel name >>= rest) := by
  constructor
  · intro grammar
    rw [grow, run_bind]
    rcases run_addLabel name grammar with ⟨number, _, result⟩ | ⟨new, _, result⟩ | ⟨_, result⟩
    · rw [result]
      exact (adds _).changes grammar
    · rw [result]
      exact .head (.label name new) ((adds _).changes _)
    · rw [result]
  · intro grammar error
    rw [grow, run_bind]
    rcases run_addLabel name grammar with ⟨number, _, result⟩ | ⟨new, _, result⟩ | ⟨_, result⟩
    · rw [result]
      exact (adds _).refused grammar error
    · rw [result]
      intro refused
      exact (adds _).refused _ error refused
    · rw [result]
      exact fun _ => rfl
  · intro grammar seen said held
    rw [grow, run_bind, List.append_cons]
    rcases run_addLabel name grammar with
      ⟨number, known, result⟩ | ⟨new, room, result⟩ | ⟨full, result⟩
    · rw [result]
      exact (adds _).seen (held.of_known known)
    · rw [result]
      exact (adds _).seen (held.push_label new room)
    · rw [result, List.append_assoc]
      exact (List.append_nil said).symm ▸ held.of_full full _

theorem addBinary (rule : BinaryRule) : (addBinary rule).Adds [] [] := by
  apply of_run
  intro grammar
  simp only [Grammar.addBinary, ExceptT.run, ExceptT.mk]
  split
  · exact .inr ⟨_, _, rfl, .refl, rfl, rfl⟩
  · rename_i new
    split
    · exact .inl ⟨_, rfl⟩
    · exact .inr ⟨_, _, rfl, .single (.binary rule new), rfl, rfl⟩

theorem addUnary (rule : UnaryRule) : (addUnary rule).Adds [] [] := by
  apply of_run
  intro grammar
  simp only [Grammar.addUnary, ExceptT.run, ExceptT.mk]
  split
  · exact .inl ⟨_, rfl⟩
  · split
    · exact .inr ⟨_, _, rfl, .refl, rfl, rfl⟩
    · rename_i new
      split
      · exact .inl ⟨_, rfl⟩
      · exact .inr ⟨_, _, rfl, .single (.unary rule new), rfl, rfl⟩

theorem addTerminal (label : Label) : (addTerminal label).Adds [] [] :=
  of_run fun grammar => .inr ⟨(), _, rfl, changes_addTerminal label grammar, rfl, rfl⟩

theorem addRoot (label : Label) : (addRoot label).Adds [] [] :=
  of_run fun grammar => .inr ⟨(), _, rfl, changes_addRoot label grammar, rfl, rfl⟩

theorem of_total {words : List String} {edit : Edit β}
    (total : ∀ grammar, ∃ value, (edit.run grammar).1 = .ok value)
    (changes : ∀ grammar, Changes grammar (edit.grow grammar))
    (seen : ∀ {grammar seen said}, Seen seen said grammar →
      Seen seen (said ++ words) (edit.grow grammar)) : edit.Adds [] words := by
  refine ⟨changes, ?_, ?_⟩
  · intro grammar error refused
    obtain ⟨value, ok⟩ := total grammar
    rw [ok] at refused
    cases refused
  · intro grammar seen' said held
    obtain ⟨value, ok⟩ := total grammar
    rw [ok, List.append_nil]
    exact seen held

theorem addWord (word : String) : (addWord word).Adds [] [word] := by
  apply of_total (exists_run_addWord word) (changes_addWord word)
  intro grammar seen said held
  exact held.addWord word

theorem addLexical (label : Label) (word : String) : (addLexical label word).Adds [] [word] := by
  have run := run_addLexical label word
  apply of_total
  · intro grammar
    obtain ⟨number, result⟩ := run grammar
    exact ⟨number, by rw [result]⟩
  · intro grammar
    obtain ⟨number, result⟩ := run grammar
    rw [grow, result]
    exact ((changes_addTerminal label grammar).trans (changes_addWord word _)).tail
      (change_addEntry number label _)
  · intro grammar seen said held
    obtain ⟨number, result⟩ := run grammar
    rw [grow, result]
    have terminal : Seen seen said ((Grammar.addTerminal label).grow grammar) := held.congr rfl rfl
    exact (terminal.addWord word).congr rfl rfl

theorem bind_pure {names words : List String} {edit : Edit β} (adds : edit.Adds names words)
    (value : β → γ) : Adds names words (edit >>= fun result => pure (value result)) := by
  have run (grammar : Grammar) : (edit >>= fun result => pure (value result) : Edit γ).run grammar =
      ((edit.run grammar).1.map value, edit.grow grammar) := by
    rw [run_bind, grow]
    rcases edit.run grammar with ⟨_ | _, _⟩
    · rfl
    · rfl
  constructor
  · intro grammar
    rw [grow, run]
    exact adds.changes grammar
  · intro grammar error
    rw [grow, run]
    intro refused
    cases result : (edit.run grammar).1 with
    | error error => exact adds.refused grammar error result
    | ok value =>
      rw [result] at refused
      cases refused
  · intro grammar seen said held
    rw [grow, run]
    have kept := adds.seen held
    cases result : (edit.run grammar).1 with
    | error error =>
      rw [result] at kept
      exact kept
    | ok value =>
      rw [result] at kept
      exact kept

theorem discard {names words : List String} {edit : Edit β} (adds : edit.Adds names words) :
    Adds names words (discard edit) :=
  adds.bind_pure fun _ => ()

theorem apply (addition : Text.Addition) :
    Adds addition.names addition.words addition.apply := by
  cases addition with
  | root label =>
    apply discard
    exact addLabel_bind (fun label => (addRoot label).bind_pure fun _ => label) label
  | binary parent left right =>
    apply discard
    refine addLabel_bind (fun parent => ?_) parent
    refine addLabel_bind (fun left => ?_) left
    exact addLabel_bind (fun right => addBinary ⟨parent, left, right⟩) right
  | unary parent child =>
    apply discard
    refine addLabel_bind (fun parent => ?_) parent
    exact addLabel_bind (fun child => addUnary ⟨parent, child⟩) child
  | terminal label =>
    apply discard
    exact addLabel_bind (fun label => (addTerminal label).bind_pure fun _ => label) label
  | lexical label word =>
    apply discard
    exact addLabel_bind (fun label => addLexical label word) label

end Edit.Adds

section Texts

open Text

theorem run_forM_adapt {ι : Type} (items : List ι) (edit : ι → Edit Unit)
    (change : ι → GrammarError → ε) (grammar : Grammar) :
    match (items.forM edit).run grammar with
    | (.ok (), next) =>
      (items.forM fun item => (edit item).adapt (change item)).run grammar = (.ok (), next)
    | (.error cause, next) => ∃ item ∈ items,
      (items.forM fun item => (edit item).adapt (change item)).run grammar =
        (.error (change item cause), next) := by
  induction items generalizing grammar with
  | nil => rfl
  | cons item items ih =>
    rw [List.forM, List.forM, Edit.run_bind, Edit.run_bind, Edit.run_adapt]
    rcases (edit item).run grammar with ⟨cause | _, next⟩
    · exact ⟨item, List.mem_cons_self, rfl⟩
    · have rest := ih next
      simp only [Except.mapError]
      rcases result : (items.forM edit).run next with ⟨cause | _, last⟩
      · rw [result] at rest
        obtain ⟨other, member, same⟩ := rest
        exact ⟨other, List.mem_cons_of_mem _ member, same⟩
      · rw [result] at rest
        exact rest

theorem forM_map {ι κ : Type} (items : List ι) (part : ι → κ)
    (edit : κ → ExceptT ε (StateM Grammar) Unit) :
    (items.map part).forM edit = items.forM fun item => edit (part item) := by
  induction items with
  | nil => rfl
  | cons item items ih => rw [List.map_cons, List.forM, ih, List.forM]

theorem run_reading (reading : Reading) (grammar : Grammar) :
    match ((reading.additions.map Prod.snd).forM Addition.apply).run grammar with
    | (.ok (), next) =>
      reading.apply.run grammar = (reading.fault.elim (.ok ()) .error, next)
    | (.error cause, next) =>
      ∃ line, reading.apply.run grammar = (.error ⟨line, .refused cause⟩, next) := by
  have adapted := run_forM_adapt reading.additions (fun addition => addition.2.apply)
    (fun addition cause => (⟨addition.1, .refused cause⟩ : LineFault)) grammar
  rw [forM_map, Reading.apply, Edit.run_bind]
  rcases result : (reading.additions.forM fun addition => addition.2.apply).run grammar with
    ⟨cause | _, next⟩
  · rw [result] at adapted
    obtain ⟨addition, _, same⟩ := adapted
    exact ⟨addition.1, by rw [same]⟩
  · rw [result] at adapted
    simp only [adapted]
    cases reading.fault with
    | none => rfl
    | some fault => rfl

/-- A text leaves the grammar that its additions leave, one after another up to one that is
refused. -/
theorem run_addText (text : String) (grammar : Grammar) :
    ((addText text).run grammar).2 =
      Edit.grow (((Reading.ofText text).additions.map Prod.snd).forM Addition.apply) grammar := by
  have read := run_reading (Reading.ofText text) grammar
  rw [addText, Edit.grow]
  rcases result : (((Reading.ofText text).additions.map Prod.snd).forM Addition.apply).run grammar
    with ⟨cause | _, next⟩
  · rw [result] at read
    obtain ⟨line, same⟩ := read
    rw [same]
  · rw [result] at read
    rw [read]

end Texts

end Grammar

end Constituency
