import Constituency.Derivation.Bracketed
import Constituency.Proofs.Descriptions
import Constituency.Proofs.GrownTree
import Constituency.Proofs.UnaryRules

/-!
Trees as text. The text of a tree is that of its parse, in whatever order the spans are listed, and
its leaves are the words of the sentence. The parse can be read off it: the brackets show where each
part ends, the labels are known from their names, and the intervals follow from the order of the
leaves.
-/

namespace Constituency

open Parents

def Sentence.shown (sentence : Sentence) (position : Nat) : String :=
  (sentence.token? position).getD "?"

namespace Parse

def text (grammar : Grammar) (sentence : Sentence) : Parse → String
  | word label position =>
    "(" ++ grammar.labelName label ++ " " ++ sentence.shown position ++ ")"
  | unary label child => "(" ++ grammar.labelName label ++ " " ++ child.text grammar sentence ++ ")"
  | binary label left right =>
    "(" ++ grammar.labelName label ++ " " ++ left.text grammar sentence ++ " " ++
      right.text grammar sentence ++ ")"

def Known (grammar : Grammar) (parse : Parse) : Prop :=
  ∀ span ∈ parse.spans, grammar.Registered span.label

/-- The parse is one of the whole sentence, with labels that a grammar knows, and no label is
repeated over an interval. -/
structure Labels (grammar : Grammar) (sentence : Sentence) (parse : Parse) : Prop where
  contiguous : parse.Contiguous
  start_eq : parse.start = 0
  stop_eq : parse.stop = sentence.length
  known : parse.Known grammar
  distinct : (parse.spans.map Span.item).Nodup

end Parse

section Written

variable {grammar : Grammar} {sentence : Sentence} {spans : List Span} {parents : Parents}

theorem Derivation.writeSpan_of_hangs {place : Nat} {parse : Parse} {places : List Nat}
    (hangs : Hangs spans parents place parse places) {depth : Nat}
    (enough : places.length ≤ depth) :
    writeSpan grammar sentence spans parents depth place = parse.text grammar sentence := by
  induction hangs generalizing depth with
  | word here rule stops below =>
    cases depth with
    | zero => simp at enough
    | succ depth =>
      simp [writeSpan, here, below, Span.isTerminal, Span.label, rule, Rule.shape, Rule.parent,
        Parse.text, Sentence.shown, String.append_assoc, String.join]
  | unary here rule_eq below slot hangs ih =>
    cases depth with
    | zero => simp at enough
    | succ depth =>
      have child := ih (Nat.le_of_succ_le_succ enough)
      simp [writeSpan, here, below, Span.isTerminal, Span.label, rule_eq, Rule.shape, Rule.parent,
        Parse.text, String.append_assoc, child, String.join]
  | binary here rule_eq below slot slot' onLeft onRight ihLeft ihRight =>
    cases depth with
    | zero => simp at enough
    | succ depth =>
      simp only [List.length_cons, List.length_append] at enough
      have meet := (congrArg Item.stop slot).trans (congrArg Item.start slot').symm
      have children := Tree.mergeSort_children below onLeft onRight meet
      have first := @ihLeft depth (by omega)
      have second := @ihRight depth (by omega)
      simp [writeSpan, here, children, Span.isTerminal, Span.label, rule_eq, Rule.shape,
        Rule.parent, Parse.text, String.append_assoc, first, second, String.join]

/-- Spans are written as the text of their parse, in whatever order they are listed. -/
theorem Derivation.write_of_perm {parse : Parse} (labels : parse.Labels grammar sentence)
    (perm : spans.Perm parse.spans) :
    write grammar sentence spans = .ok (parse.text grammar sentence) := by
  -- Another order gives other parents, but no other parse hangs at the root.
  have accepted :=
    Parse.ofTree_eq labels.contiguous labels.distinct perm labels.start_eq labels.stop_eq
  obtain ⟨root, other, places, only, straight, hangs, _⟩ := exists_hangs_of_ofTree accepted
  obtain rfl := hangs.eq_of_perm only labels.contiguous labels.distinct perm
  have written : writeSpan grammar sentence spans (bySlot spans) spans.length root = _ :=
    writeSpan_of_hangs hangs (hangs.length_le straight)
  simp only [write, accepted, root?, only, bind, Except.bind, written]
  rfl

end Written

namespace Bracketed

/-- The characters that end a word of a bracketed text. -/
def isMark (c : Char) : Bool := c == ' ' || c == '(' || c == ')'

/-- A word that can be told apart from what is around it. -/
def Bare (word : String) : Prop := word ≠ "" ∧ ∀ c ∈ word.toList, isMark c = false

/-- A run of characters is a leaf if it is a word that names no node. -/
def leaf (named : Bool) (run : List Char) : List String :=
  if named || run.isEmpty then [] else [String.ofList run]

/-- The leaves of a text from some character on, where `run` has just been read; `named` tells
whether it stands right behind an opening bracket. -/
def leavesFrom (named : Bool) (run : List Char) : List Char → List String
  | [] => leaf named run
  | c :: rest =>
    if isMark c then leaf named run ++ leavesFrom (c == '(') [] rest
    else leavesFrom named (run ++ [c]) rest

/-- The words of a bracketed text that name no node. -/
def leaves (text : String) : List String := leavesFrom false [] text.toList

theorem leavesFrom_word (named : Bool) (run : List Char) {word : List Char}
    (bare : ∀ c ∈ word, isMark c = false) {mark : Char} (ends : isMark mark = true)
    (rest : List Char) :
    leavesFrom named run (word ++ mark :: rest) =
      leaf named (run ++ word) ++ leavesFrom (mark == '(') [] rest := by
  induction word generalizing run with
  | nil => simp [leavesFrom, ends]
  | cons c word ih =>
    rw [List.cons_append, leavesFrom, if_neg (by simp [bare c]), ih _ fun d member =>
      bare d (by simp [member]), List.append_assoc, List.singleton_append]

theorem word_inj {word word' : List Char} (bare : ∀ c ∈ word, isMark c = false)
    (bare' : ∀ c ∈ word', isMark c = false) {mark : Char} (ends : isMark mark = true)
    {rest rest' : List Char} (same : word ++ mark :: rest = word' ++ mark :: rest') :
    word = word' ∧ rest = rest' := by
  have first {word rest : List Char} (bare : ∀ c ∈ word, isMark c = false) :
      (word ++ mark :: rest).takeWhile (fun c => !isMark c) = word := by
    rw [List.takeWhile_append_of_pos (by simpa using bare),
      List.takeWhile_cons_of_neg (by simp [ends]), List.append_nil]
  have words := congrArg (List.takeWhile fun c => !isMark c) same
  rw [first bare, first bare'] at words
  subst words
  exact ⟨rfl, (List.cons.inj (List.append_cancel_left same)).2⟩

end Bracketed

namespace Parse

open Bracketed

variable {grammar : Grammar} {sentence : Sentence}

/-- The text of a parse behind the name of its label. -/
def inner (grammar : Grammar) (sentence : Sentence) : Parse → List Char
  | word _ position => (sentence.shown position).toList ++ [')']
  | unary _ child => (child.text grammar sentence).toList ++ [')']
  | binary _ left right =>
    (left.text grammar sentence).toList ++ ' ' :: ((right.text grammar sentence).toList ++ [')'])

theorem toList_text (parse : Parse) : (parse.text grammar sentence).toList =
    '(' :: ((grammar.labelName parse.label).toList ++ ' ' :: parse.inner grammar sentence) := by
  cases parse <;> simp [text, inner, label]

namespace Known

theorem label {parse : Parse} (known : parse.Known grammar) : grammar.Registered parse.label := by
  have top := known _ parse.top_mem_spans
  cases parse <;> exact top

theorem child {label : Label} {child : Parse} (known : (unary label child).Known grammar) :
    child.Known grammar :=
  (List.forall_mem_cons.mp known).2

theorem children {label : Label} {left right : Parse}
    (known : (binary label left right).Known grammar) :
    left.Known grammar ∧ right.Known grammar :=
  List.forall_mem_append.mp (List.forall_mem_cons.mp known).2

end Known

def shownWords (sentence : Sentence) (parse : Parse) : List String :=
  ((parse.spans.filter Span.isTerminal).map Span.start).map sentence.shown

section Read

variable (names : ∀ name ∈ grammar.labels.toList, Bare name)
  (tokens : ∀ token ∈ sentence.tokens, Bare token)

include names in
theorem bare_labelName {parse : Parse} (known : parse.Known grammar) :
    Bare (grammar.labelName parse.label) :=
  names _ ((Numbering.mem_toList_iff _ _).mpr ⟨_, known.label.get?_labelName⟩)

include tokens in
theorem bare_shown (position : Nat) : Bare (sentence.shown position) := by
  rw [Sentence.shown, Sentence.token?]
  cases found : sentence.words[position]? with
  | none => exact ⟨by simp, by simp [isMark]⟩
  | some word =>
    refine tokens _ (List.mem_map.mpr ⟨word, ?_, rfl⟩)
    exact Array.mem_toList_iff.mpr (Array.mem_of_getElem? found)

include names in
theorem leavesFrom_opened {parse : Parse} (known : parse.Known grammar) (named : Bool)
    (rest : List Char) :
    leavesFrom named [] ((parse.text grammar sentence).toList ++ rest) =
      leavesFrom false [] (parse.inner grammar sentence ++ rest) := by
  rw [toList_text, List.cons_append, List.append_assoc, leavesFrom, if_pos (by decide),
    List.cons_append, leavesFrom_word _ _ (bare_labelName names known).2 (by decide)]
  simp [leaf]

include names tokens in
/-- Reading the text of a parse gives the tokens at its leaves. -/
theorem leavesFrom_text {parse : Parse} (known : parse.Known grammar) (named : Bool)
    (rest : List Char) :
    leavesFrom named [] ((parse.text grammar sentence).toList ++ rest) =
      parse.shownWords sentence ++ leavesFrom false [] rest := by
  induction parse generalizing named rest with
  | word label position =>
    obtain ⟨filled, bare⟩ := bare_shown tokens position
    rw [leavesFrom_opened names known, inner, List.append_assoc,
      List.singleton_append, leavesFrom_word _ _ bare (by decide)]
    simp [leaf, filled, shownWords, spans, top, Span.isTerminal, Span.terminal, Rule.shape]
  | unary label child ih =>
    rw [leavesFrom_opened names known, inner, List.append_assoc, ih known.child,
      List.singleton_append, leavesFrom, if_pos (by decide)]
    rfl
  | binary label left right ihLeft ihRight =>
    obtain ⟨onLeft, onRight⟩ := known.children
    rw [leavesFrom_opened names known, inner, List.append_assoc, ihLeft onLeft,
      List.cons_append, leavesFrom, if_pos (by decide), List.append_assoc, ihRight onRight,
      List.singleton_append, leavesFrom, if_pos (by decide)]
    simp [leaf, shownWords, spans, top, Span.isTerminal, Span.binary, Rule.shape]

theorem shownWords_eq {parse : Parse} (contiguous : parse.Contiguous) (starts : parse.start = 0)
    (stops : parse.stop = sentence.length) : parse.shownWords sentence = sentence.tokens := by
  rw [shownWords, contiguous.starts_of_words, starts, stops, Nat.sub_zero]
  apply List.ext_getElem
  · simp [Sentence.tokens, Sentence.length]
  · intro position inside inside'
    simp [Sentence.tokens, Sentence.length, Sentence.shown, Sentence.token?] at inside ⊢
    simp [inside]

end Read

section Injective

variable (sound : grammar.labels.Sound) (names : ∀ name ∈ grammar.labels.toList, Bare name)
  (tokens : ∀ token ∈ sentence.tokens, Bare token)

include sound names in
theorem label_of_text {parse other : Parse} (known : parse.Known grammar)
    (known' : other.Known grammar) {rest rest' : List Char}
    (same : (parse.text grammar sentence).toList ++ rest =
      (other.text grammar sentence).toList ++ rest') :
    parse.label = other.label ∧
      parse.inner grammar sentence ++ rest = other.inner grammar sentence ++ rest' := by
  simp only [toList_text, List.cons_append, List.append_assoc, List.cons.injEq, true_and] at same
  obtain ⟨name, inside⟩ := word_inj (bare_labelName names known).2
    (bare_labelName names known').2 (by decide) same
  exact ⟨known.label.labelName_inj sound known'.label (String.toList_inj.mp name), inside⟩

include tokens in
theorem shown_ne_text (position : Nat) (parse : Parse) {rest rest' : List Char} :
    (sentence.shown position).toList ++ rest ≠ (parse.text grammar sentence).toList ++ rest' := by
  intro same
  have bare := bare_shown tokens position
  rw [toList_text] at same
  cases word : (sentence.shown position).toList with
  | nil => exact bare.1 (String.toList_eq_nil_iff.mp word)
  | cons c more =>
    rw [word] at same
    have opened := bare.2 c (word ▸ List.mem_cons_self)
    rw [(List.cons.inj same).1] at opened
    exact absurd opened (by decide)

include sound names tokens in
/-- Where the texts of two parses from one position begin a text, the parses are one. -/
theorem text_append_inj {parse other : Parse} (contiguous : parse.Contiguous)
    (contiguous' : other.Contiguous) (known : parse.Known grammar) (known' : other.Known grammar)
    (starts : parse.start = other.start) {rest rest' : List Char}
    (same : (parse.text grammar sentence).toList ++ rest =
      (other.text grammar sentence).toList ++ rest') : parse = other ∧ rest = rest' := by
  -- The parses have one shape: no token reads as a tree, and behind its first child a parse has a
  -- bracket or a blank, as it is unary or binary. Children start together, the right ones where the
  -- left ones stop.
  induction parse generalizing other rest rest' with
  | word label position =>
    obtain ⟨labels, inside⟩ := label_of_text sound names known known' same
    cases other with
    | word label' position' =>
      obtain rfl : label = label' := labels
      obtain rfl : position = position' := starts
      exact ⟨rfl, List.append_cancel_left inside⟩
    | unary label' child' =>
      simp only [inner, List.append_assoc] at inside
      exact absurd inside (shown_ne_text tokens _ _)
    | binary label' left' right' =>
      simp only [inner, List.append_assoc] at inside
      exact absurd inside (shown_ne_text tokens _ _)
  | unary label child ih =>
    obtain ⟨labels, inside⟩ := label_of_text sound names known known' same
    cases other with
    | word label' position' =>
      simp only [inner, List.append_assoc] at inside
      exact absurd inside.symm (shown_ne_text tokens _ _)
    | unary label' child' =>
      simp only [inner, List.append_assoc] at inside
      have onChild' : child'.Contiguous := contiguous'
      obtain ⟨rfl, after⟩ := ih contiguous onChild' known.child known'.child starts inside
      obtain rfl : label = label' := labels
      exact ⟨rfl, List.append_cancel_left after⟩
    | binary label' left' right' =>
      simp only [inner, List.append_assoc] at inside
      obtain ⟨_, after⟩ :=
        ih contiguous contiguous'.2.1 known.child known'.children.1 starts inside
      simp at after
  | binary label left right ihLeft ihRight =>
    obtain ⟨labels, inside⟩ := label_of_text sound names known known' same
    obtain ⟨meet, onLeft, onRight⟩ := contiguous
    obtain ⟨below, beside⟩ := known.children
    cases other with
    | word label' position' =>
      simp only [inner, List.append_assoc] at inside
      exact absurd inside.symm (shown_ne_text tokens _ _)
    | unary label' child' =>
      simp only [inner, List.append_assoc] at inside
      have onChild' : child'.Contiguous := contiguous'
      obtain ⟨_, after⟩ := ihLeft onLeft onChild' below known'.child starts inside
      simp at after
    | binary label' left' right' =>
      obtain ⟨meet', onLeft', onRight'⟩ := contiguous'
      obtain ⟨below', beside'⟩ := known'.children
      simp only [inner, List.append_assoc, List.cons_append] at inside
      obtain ⟨rfl, after⟩ := ihLeft onLeft onLeft' below below' starts inside
      have next : right.start = right'.start := meet.symm.trans meet'
      obtain ⟨rfl, behind⟩ :=
        ihRight onRight onRight' beside beside' next (List.cons.inj after).2
      obtain rfl : label = label' := labels
      exact ⟨rfl, (List.cons.inj behind).2⟩

end Injective

end Parse

open Bracketed

/-- The text of a labelled tree identifies it: it is the same for every order of the spans, its
leaves are the sentence, and no other tree over the sentence has it. -/
theorem Derivation.write_identifies {grammar : Grammar} {sentence : Sentence}
    (served : grammar.Served) (names : ∀ name ∈ grammar.labels.toList, Bare name)
    (tokens : ∀ token ∈ sentence.tokens, Bare token) {parse : Parse}
    (labels : parse.Labels grammar sentence) :
    ∃ text, (∀ spans : List Span, spans.Perm parse.spans →
        write grammar sentence spans = .ok text) ∧
      leaves text = sentence.tokens ∧
      ∀ (other : Parse) (spans : List Span), other.Labels grammar sentence →
        spans.Perm other.spans → write grammar sentence spans = .ok text →
        spans.Perm parse.spans := by
  refine ⟨parse.text grammar sentence, fun spans => write_of_perm labels, ?_, ?_⟩
  · have read := Parse.leavesFrom_text names tokens labels.known false []
    rw [List.append_nil, Parse.shownWords_eq labels.contiguous labels.start_eq labels.stop_eq,
      leavesFrom] at read
    exact read.trans (List.append_nil _)
  · intro other spans labels' perm written
    rw [write_of_perm labels' perm] at written
    have texts := congrArg String.toList (Except.ok.inj written)
    have starts := labels'.start_eq.trans labels.start_eq.symm
    obtain ⟨rfl, _⟩ := Parse.text_append_inj served.labels_sound names tokens labels'.contiguous
      labels.contiguous labels'.known labels.known starts (congrArg (· ++ []) texts)
    exact perm

theorem Derivation.write_identifies_row :
    let parse := Parse.binary 0 (.word 1 0) (.unary 0 (.word 1 1))
    let text := "(row (word one) (row (word two)))"
    Grammar.row.Served ∧ (∀ name ∈ Grammar.row.labels.toList, Bare name) ∧
      (∀ token ∈ twoWords.tokens, Bare token) ∧ parse.Labels Grammar.row twoWords ∧
      write Grammar.row twoWords parse.spans.reverse = .ok text ∧ leaves text = ["one", "two"] := by
  intro parse text
  have names : ∀ name ∈ Grammar.row.labels.toList, Bare name := by
    have listed : Grammar.row.labels.toList = ["row", "word"] := by cbv
    rw [listed]
    simp [Bare, isMark]
  have tokens : ∀ token ∈ twoWords.tokens, Bare token := by
    simp [twoWords, Sentence.tokens, Bare, isMark]
  have labels : parse.Labels Grammar.row twoWords := by
    refine ⟨⟨rfl, trivial, trivial⟩, rfl, rfl, fun span member => ?_, by decide⟩
    rw [Grammar.Registered, Grammar.row_labelCount]
    revert span
    decide
  obtain ⟨text', same, read, _⟩ :=
    write_identifies Grammar.row_built.served names tokens labels
  have written := same _ (List.reverse_perm _)
  have spelled : write Grammar.row twoWords parse.spans.reverse = .ok text := by cbv
  rw [spelled] at written
  obtain rfl : text = text' := Except.ok.inj written
  exact ⟨Grammar.row_built.served, names, tokens, labels, spelled, read⟩

end Constituency
