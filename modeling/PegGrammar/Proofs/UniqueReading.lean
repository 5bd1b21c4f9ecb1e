import PegGrammar.Proofs.Closed
import PegGrammar.Proofs.WrittenForm

/-!
# Phrases can be read in one way only

A text is the text of at most one phrase, if the names of the rules can be told from the signs of
the notation and from each other. What an expression loses when it is written is therefore exactly
what its phrase does not show.

## How a text is read

From left to right, one part at a time. A part is found again in front of any text that cannot be
taken for more of it: a quoted text ends with its mark, a name with the first sign, the signs of
repetition with a blank, and a phrase with a blank before a parenthesis or a bar. Each lemma here
has the form "if two parts are followed by such texts, and the whole is the same, then so are the
parts and what follows them", and the lemma for a form is put together from those for its parts.

## Main definitions

* `PlainName`, `Readable` — names that can be told from the signs and from each other
* `IsWord` — words, which can be told from the signs of any notation
* `Item.AllRefer` — phrases that only name rules of a kind

## Main results

* `Word.append_inj`, `Item.append_inj`, `Item.writeAll_append_inj` — reading a word, an item, a
  phrase
* `Expr.phrase_eq_of_write_eq` — expressions with the same text have the same phrase
-/

namespace PegGrammar

variable {r s : List Char}

/-! ### Texts that end where something else begins -/

/-- The text does not begin with such a character. -/
def StopsAt (p : Char → Bool) (r : List Char) : Prop := ∀ c ∈ r.head?, p c = false

@[simp] theorem stopsAt_nil (p : Char → Bool) : StopsAt p [] := nofun

@[simp] theorem stopsAt_cons {p : Char → Bool} {c : Char} : StopsAt p (c :: r) ↔ p c = false :=
  ⟨fun h => h c rfl, fun hc _ h => Option.mem_some.mp h ▸ hc⟩

/-- Two texts of such characters can be cut off again, if what follows begins with some other one.
All names and all signs of repetition are read by this lemma. -/
theorem append_inj_of_stopsAt {p : Char → Bool} {xs ys : List Char} (hxs : ∀ c ∈ xs, p c = true)
    (hys : ∀ c ∈ ys, p c = true) (hr : StopsAt p r) (hs : StopsAt p s) (h : xs ++ r = ys ++ s) :
    xs = ys ∧ r = s := by
  have hstop : ∀ {r}, StopsAt p r → r.takeWhile p = [] := by
    rintro (_ | ⟨c, r⟩) hr
    · rfl
    · rw [List.takeWhile_cons, stopsAt_cons.mp hr]
      rfl
  have htake := congrArg (List.takeWhile p) h
  rw [List.takeWhile_append_of_pos hxs, List.takeWhile_append_of_pos hys, hstop hr, hstop hs,
    List.append_nil, List.append_nil] at htake
  subst htake
  exact ⟨rfl, List.append_cancel_left h⟩

/-- Characters written one after the other, if each can be read by itself and none of them begins
like the sign that closes them. -/
theorem flatMap_append_inj {write : Char → List Char} {close : Char}
    (hwrite : ∀ {c d : Char} {r s : List Char}, write c ++ r = write d ++ s → c = d ∧ r = s)
    (hclose : ∀ c rest more, close :: rest ≠ write c ++ more) {cs ds : List Char}
    (h : cs.flatMap write ++ close :: r = ds.flatMap write ++ close :: s) : cs = ds ∧ r = s := by
  induction cs generalizing ds with
  | nil =>
    cases ds with
    | nil => exact ⟨rfl, (List.cons.inj h).2⟩
    | cons d ds =>
      rw [List.flatMap_nil, List.nil_append, List.flatMap_cons, List.append_assoc] at h
      exact absurd h (hclose _ _ _)
  | cons c cs ih =>
    cases ds with
    | nil =>
      rw [List.flatMap_nil, List.nil_append, List.flatMap_cons, List.append_assoc] at h
      exact absurd h.symm (hclose _ _ _)
    | cons d ds =>
      rw [List.flatMap_cons, List.flatMap_cons, List.append_assoc, List.append_assoc] at h
      obtain ⟨rfl, hrest⟩ := hwrite h
      obtain ⟨rfl, hr⟩ := ih hrest
      exact ⟨rfl, hr⟩

/-! ### Quoted texts -/

/-- What the character behind a backslash stands for. -/
def unescape (c : Char) : Char :=
  if c = 'n' then '\n' else if c = 'r' then '\r' else if c = 't' then '\t' else c

section Escaped

variable {close : Char} (hclose : unescape close = close) (hbackslash : close ≠ '\\')

include hclose in
/-- A character is written with a backslash or as it is. In the second case it can be taken neither
for a backslash nor for the mark that ends the quotation. -/
theorem writeEscaped_cases (c : Char) :
    (∃ k, writeEscaped close c = ['\\', k] ∧ unescape k = c) ∨
      (writeEscaped close c = [c] ∧ c ≠ '\\' ∧ c ≠ close) := by
  rw [writeEscaped]
  split
  next h =>
    rcases h with rfl | rfl
    · exact Or.inl ⟨c, rfl, hclose⟩
    · exact Or.inl ⟨'\\', rfl, rfl⟩
  next h =>
    rw [not_or] at h
    split
    next hc => exact Or.inl ⟨'n', rfl, hc.symm⟩
    next =>
      split
      next hc => exact Or.inl ⟨'r', rfl, hc.symm⟩
      next =>
        split
        next hc => exact Or.inl ⟨'t', rfl, hc.symm⟩
        next => exact Or.inr ⟨rfl, h.2, h.1⟩

include hclose in
theorem writeEscaped_append_inj {c d : Char}
    (h : writeEscaped close c ++ r = writeEscaped close d ++ s) : c = d ∧ r = s := by
  rcases writeEscaped_cases hclose c with ⟨k, hc, rfl⟩ | ⟨hc, hne, -⟩ <;>
    rcases writeEscaped_cases hclose d with ⟨l, hd, rfl⟩ | ⟨hd, hne', -⟩ <;>
    rw [hc, hd] at h
  · simp only [List.cons_append, List.nil_append, List.cons.injEq, true_and] at h
    exact ⟨by rw [h.1], h.2⟩
  · exact absurd (List.cons.inj h).1.symm hne'
  · exact absurd (List.cons.inj h).1 hne
  · simpa using h

include hclose hbackslash in
/-- The characters between two marks can be read back, because the closing mark is not the beginning
of any of them. -/
theorem escaped_append_inj {cs ds : List Char}
    (h : cs.flatMap (writeEscaped close) ++ close :: r
      = ds.flatMap (writeEscaped close) ++ close :: s) : cs = ds ∧ r = s := by
  refine flatMap_append_inj (fun h => writeEscaped_append_inj hclose h) ?_ h
  intro c rest more heq
  rcases writeEscaped_cases hclose c with ⟨k, hc, -⟩ | ⟨hc, -, hne⟩ <;> rw [hc] at heq
  · exact hbackslash (List.cons.inj heq).1
  · exact hne (List.cons.inj heq).1.symm

end Escaped

theorem writeQuoted_append_inj {cs ds : List Char} (h : writeQuoted cs ++ r = writeQuoted ds ++ s) :
    cs = ds ∧ r = s := by
  simp only [writeQuoted, List.cons_append, List.append_assoc, List.nil_append, List.cons.injEq,
    true_and] at h
  exact escaped_append_inj rfl (by decide) h

/-! ### Words -/

/-- The characters that the notation uses as signs. -/
def reservedSigns : List Char := [' ', '\'', '[', '.', '(', ')', '|', '?', '*', '+']

/-- Whether a character can be part of a name. -/
def isNameChar (c : Char) : Bool := !reservedSigns.contains c

/-- A name that can be told from the signs of the notation: not empty, without any of the signs,
and not the word for the end of the text. Words of letters, digits and underscores are such
names. -/
structure PlainName (name : String) : Prop where
  /-- There is something to read. -/
  ne_empty : name ≠ ""
  /-- It is not taken for the end of the text. -/
  ne_endOfInput : name ≠ "EOF"
  /-- It ends where a sign begins. -/
  all_isNameChar : name.toList.all isNameChar = true

/-- Whether a character can stand in a word: a letter, a digit or an underscore. Letters and digits
outside ASCII are not told from the other characters there. -/
def isWordChar (c : Char) : Bool := c.isAlphanum || c == '_' || 127 < c.toNat

/-- A word of letters, digits and underscores. -/
structure IsWord (name : String) : Prop where
  /-- There is something to read. -/
  ne_empty : name ≠ ""
  /-- It consists of letters, digits and underscores. -/
  all_isWordChar : name.toList.all isWordChar = true

theorem IsWord.ne_of_mem {name : String} (h : IsWord name) {c d : Char} (hc : c ∈ name.toList)
    (hd : isWordChar d = false) : c ≠ d := by
  rintro rfl
  rw [List.all_eq_true.mp h.all_isWordChar c hc] at hd
  cases hd

/-- Every word but one can be used as a name: the signs of the notation are not letters, and the
exception is the word for the end of the text. -/
theorem IsWord.plainName {name : String} (h : IsWord name) (hne : name ≠ "EOF") :
    PlainName name where
  ne_empty := h.ne_empty
  ne_endOfInput := hne
  all_isNameChar := by
    have hsigns : reservedSigns.all (!isWordChar ·) = true := by decide
    rw [List.all_eq_true] at hsigns ⊢
    intro c hc
    have hmem : c ∉ reservedSigns := by
      intro hmem
      exact h.ne_of_mem hc (by simpa using hsigns c hmem) rfl
    simpa [isNameChar] using hmem

theorem PlainName.isNameChar_of_mem {name : String} (h : PlainName name) {c : Char}
    (hc : c ∈ name.toList) : isNameChar c = true :=
  List.all_eq_true.mp h.all_isNameChar c hc

theorem PlainName.exists_cons {name : String} (h : PlainName name) :
    ∃ c cs, name.toList = c :: cs ∧ isNameChar c = true := by
  cases htext : name.toList with
  | nil => exact absurd (String.toList_eq_nil_iff.mp htext) h.ne_empty
  | cons c cs => exact ⟨c, cs, rfl, h.isNameChar_of_mem (by rw [htext]; exact List.mem_cons_self)⟩

/-- The names of such rules can be read: they are plain, and no two of them are the same. -/
structure Readable (name : RuleId → String) (D : RuleId → Prop) : Prop where
  /-- Each name can be told from the signs. -/
  plain : ∀ id, D id → PlainName (name id)
  /-- No two rules have the same name. -/
  distinct : ∀ id id', D id → D id' → name id = name id' → id = id'

/-- A text that can follow a word: it begins with a blank or a sign of repetition, if at all. -/
def FollowsWord (r : List Char) : Prop := ∀ c ∈ r.head?, c ∈ [' ', '?', '*', '+']

/-- None of the signs that can follow a word could be a further character of a name. -/
theorem FollowsWord.stopsAt (hr : FollowsWord r) : StopsAt isNameChar r := by
  have hsigns : ∀ c ∈ [' ', '?', '*', '+'], isNameChar c = false := by
    simp [isNameChar, reservedSigns]
  exact fun c hc => hsigns c (hr c hc)

/-- What follows a word is not more of a range. -/
theorem FollowsWord.ne_stop (hr : FollowsWord r) (rest : List Char) : r ≠ '.' :: rest := by
  rintro rfl
  exact absurd (hr '.' rfl) (by decide)

/-- The forms of words that can be told apart by their first character. -/
inductive Word.Form where
  /-- Beginning with a quotation mark. -/
  | quoted
  /-- Beginning with a bracket. -/
  | bracketed
  /-- The full stop. -/
  | stop
  /-- Beginning with a character of a name. -/
  | named
  deriving DecidableEq

namespace Word

/-- The form of a word. -/
def form : Word → Form
  | .terminal (.literal _) | .terminal (.charRange _ _) => .quoted
  | .terminal (.charSet _) => .bracketed
  | .terminal .any => .stop
  | .terminal .endOfInput | .rule _ => .named

theorem form_eq_stop_iff {w : Word} : w.form = .stop ↔ w = .terminal .any := by
  cases w with
  | terminal t => cases t <;> simp [form]
  | rule id => simp [form]

theorem form_eq_bracketed_iff {w : Word} :
    w.form = .bracketed ↔ ∃ set, w = .terminal (.charSet set) := by
  cases w with
  | terminal t => cases t <;> simp [form]
  | rule id => simp [form]

theorem form_eq_quoted_iff {w : Word} :
    w.form = .quoted ↔
      (∃ text, w = .terminal (.literal text)) ∨ ∃ a b, w = .terminal (.charRange a b) := by
  cases w with
  | terminal t => cases t <;> simp [form]
  | rule id => simp [form]

theorem form_eq_named_iff {w : Word} :
    w.form = .named ↔ w = .terminal .endOfInput ∨ ∃ id, w = .rule id := by
  cases w with
  | terminal t => cases t <;> simp [form]
  | rule id => simp [form]

/-- The form of the word that a text begins with. -/
def formOf (cs : List Char) : Form :=
  match cs.head? with
  | some '\'' => .quoted
  | some '[' => .bracketed
  | some '.' => .stop
  | _ => .named

/-- The word is a terminal, or the name of such a rule. -/
def Refers (D : RuleId → Prop) : Word → Prop
  | .terminal _ => True
  | .rule id => D id

section Read

variable {name : RuleId → String} {D : RuleId → Prop} {v w : Word}

/-- The first character of a word tells its form, whatever is written behind it. The four forms can
then be read one at a time. -/
theorem formOf_write_append (hname : Readable name D) (hw : w.Refers D) (r : List Char) :
    formOf (w.write name ++ r) = w.form := by
  match w with
  | .terminal (.literal _) | .terminal (.charRange _ _) | .terminal (.charSet _) => rfl
  | .terminal .any | .terminal .endOfInput => rfl
  | .rule id =>
    obtain ⟨c, cs, htext, hc⟩ := (hname.plain id hw).exists_cons
    rw [write, htext, List.cons_append, formOf, List.head?_cons]
    split
    case h_4 => rfl
    all_goals
      rename_i heq
      cases heq
      exact absurd hc (by decide)

/-- A word does not begin with a parenthesis or a bar. -/
theorem exists_write_eq_cons (hname : Readable name D) (hw : w.Refers D) :
    ∃ c rest, w.write name = c :: rest ∧ c ∉ ['(', ')', '|'] := by
  match w with
  | .terminal (.literal _) | .terminal (.charRange _ _) => exact ⟨'\'', _, rfl, by decide⟩
  | .terminal (.charSet _) => exact ⟨'[', _, rfl, by decide⟩
  | .terminal .any => exact ⟨'.', _, rfl, by decide⟩
  | .terminal .endOfInput => exact ⟨'E', _, rfl, by decide⟩
  | .rule id =>
    obtain ⟨c, cs, htext, hc⟩ := (hname.plain id hw).exists_cons
    have hsigns : ∀ c ∈ ['(', ')', '|'], isNameChar c = false := by
      simp [isNameChar, reservedSigns]
    refine ⟨c, cs, htext, fun hmem => ?_⟩
    rw [hsigns c hmem] at hc
    cases hc

theorem isNameChar_of_mem_write (hname : Readable name D) (hw : w.Refers D)
    (hform : w.form = .named) : ∀ c ∈ w.write name, isNameChar c = true := by
  rcases form_eq_named_iff.mp hform with rfl | ⟨id, rfl⟩
  · simp [write, Terminal.write, isNameChar, reservedSigns]
  · exact fun c hc => (hname.plain id hw).isNameChar_of_mem hc

/-- Words of the form of a name are told apart by their text, since no rule has the name that stands
for the end of the text and no two rules share a name. -/
theorem eq_of_write_eq (hname : Readable name D) (hv : v.Refers D) (hw : w.Refers D)
    (hform : v.form = .named) (hform' : w.form = .named) (h : v.write name = w.write name) :
    v = w := by
  have hend : "EOF".toList = Terminal.endOfInput.write := by decide
  rcases form_eq_named_iff.mp hform with rfl | ⟨id, rfl⟩ <;>
    rcases form_eq_named_iff.mp hform' with rfl | ⟨id', rfl⟩
  · rfl
  · exact absurd (String.toList_inj.mp (hend.trans h)).symm (hname.plain id' hw).ne_endOfInput
  · exact absurd (String.toList_inj.mp (h.trans hend.symm)) (hname.plain id hv).ne_endOfInput
  · rw [hname.distinct id id' hv hw (String.toList_inj.mp h)]

/-- **Reading a word.** -/
theorem append_inj (hname : Readable name D) (hv : v.Refers D) (hw : w.Refers D)
    (hr : FollowsWord r) (hs : FollowsWord s) (h : v.write name ++ r = w.write name ++ s) :
    v = w ∧ r = s := by
  have hform : w.form = v.form := by
    rw [← formOf_write_append hname hv r, h, formOf_write_append hname hw s]
  cases hform' : v.form with
  | named =>
    rw [hform'] at hform
    obtain ⟨hwrite, hrest⟩ := append_inj_of_stopsAt (isNameChar_of_mem_write hname hv hform')
      (isNameChar_of_mem_write hname hw hform) hr.stopsAt hs.stopsAt h
    exact ⟨eq_of_write_eq hname hv hw hform' hform hwrite, hrest⟩
  | stop =>
    rw [hform'] at hform
    obtain rfl := form_eq_stop_iff.mp hform'
    obtain rfl := form_eq_stop_iff.mp hform
    exact ⟨rfl, (List.cons.inj h).2⟩
  | bracketed =>
    rw [hform'] at hform
    obtain ⟨⟨chars, _⟩, rfl⟩ := form_eq_bracketed_iff.mp hform'
    obtain ⟨⟨chars', _⟩, rfl⟩ := form_eq_bracketed_iff.mp hform
    simp only [write, Terminal.write, List.cons_append, List.append_assoc, List.nil_append,
      List.cons.injEq, true_and] at h
    obtain ⟨rfl, hrest⟩ := escaped_append_inj rfl (by decide) h
    exact ⟨rfl, hrest⟩
  | quoted =>
    rw [hform'] at hform
    rcases form_eq_quoted_iff.mp hform' with ⟨x, rfl⟩ | ⟨a, b, rfl⟩ <;>
      rcases form_eq_quoted_iff.mp hform with ⟨y, rfl⟩ | ⟨a', b', rfl⟩ <;>
      simp only [write, Terminal.write, List.append_assoc] at h
    · obtain ⟨hx, hrest⟩ := writeQuoted_append_inj h
      exact ⟨by rw [String.toList_inj.mp hx], hrest⟩
    · exact absurd (writeQuoted_append_inj h).2 (hr.ne_stop _)
    · exact absurd (writeQuoted_append_inj h).2.symm (hs.ne_stop _)
    · obtain ⟨ha, hrest⟩ := writeQuoted_append_inj h
      obtain ⟨hb, hend⟩ := writeQuoted_append_inj (List.append_cancel_left hrest)
      rw [List.singleton_inj] at ha hb
      exact ⟨by rw [ha, hb], hend⟩

end Read

end Word

/-! ### Signs of repetition -/

/-- A text that can follow an item: it begins with a blank, if at all. -/
def FollowsItem (r : List Char) : Prop := ∀ c ∈ r.head?, c = ' '

theorem Bounds.symbol_injective {b b' : Bounds} (h : b.symbol = b'.symbol) : b = b' := by
  cases b <;> cases b' <;> first | rfl | exact absurd h (by decide)

theorem mem_writeSigns {signs : List Bounds} {c : Char} (h : c ∈ writeSigns signs) :
    c ∈ ['?', '*', '+'] := by
  obtain ⟨b, -, rfl⟩ := List.mem_map.mp h
  cases b <;> decide

theorem FollowsItem.followsWord (hr : FollowsItem r) (signs : List Bounds) :
    FollowsWord (writeSigns signs ++ r) := by
  intro c hc
  cases hsigns : writeSigns signs with
  | nil =>
    rw [hsigns, List.nil_append] at hc
    rw [hr c hc]
    decide
  | cons d ds =>
    rw [hsigns] at hc
    obtain rfl : d = c := Option.some.inj hc
    exact List.mem_cons_of_mem _ (mem_writeSigns (hsigns ▸ List.mem_cons_self))

/-- The signs behind a word or a group can be read back, because an item is followed by a blank or
by nothing. -/
theorem writeSigns_append_inj {signs signs' : List Bounds} (hr : FollowsItem r)
    (hs : FollowsItem s) (h : writeSigns signs ++ r = writeSigns signs' ++ s) :
    signs = signs' ∧ r = s := by
  have hstop : ∀ {r}, FollowsItem r → StopsAt ['?', '*', '+'].contains r := by
    intro r hr c hc
    rw [hr c hc]
    rfl
  obtain ⟨hsigns, hrest⟩ := append_inj_of_stopsAt (p := ['?', '*', '+'].contains)
    (fun c hc => List.contains_iff_mem.mpr (mem_writeSigns hc))
    (fun c hc => List.contains_iff_mem.mpr (mem_writeSigns hc)) (hstop hr) (hstop hs) h
  exact ⟨List.map_injective_iff.mpr (fun _ _ => Bounds.symbol_injective) hsigns, hrest⟩

/-! ### Items and phrases -/

mutual

/-- The item only names such rules. -/
def Item.Refers (D : RuleId → Prop) : Item → Prop
  | .word w _ => w.Refers D
  | .group first others _ => Item.AllRefer D first ∧ Item.EachRefers D others

/-- The phrase only names such rules. -/
def Item.AllRefer (D : RuleId → Prop) : List Item → Prop
  | [] => True
  | item :: items => item.Refers D ∧ Item.AllRefer D items

/-- The phrases only name such rules. -/
def Item.EachRefers (D : RuleId → Prop) : List (List Item) → Prop
  | [] => True
  | phrase :: phrases => Item.AllRefer D phrase ∧ Item.EachRefers D phrases

end

/-- A text that can follow a phrase: behind a blank it has a parenthesis or a bar. -/
def FollowsPhrase (r : List Char) : Prop :=
  FollowsItem r ∧ ∀ c rest, r = ' ' :: c :: rest → c = ')' ∨ c = '|'

theorem followsPhrase_nil : FollowsPhrase [] := ⟨nofun, nofun⟩

theorem followsPhrase_cons {c : Char} (hc : c = ')' ∨ c = '|') (rest : List Char) :
    FollowsPhrase (' ' :: c :: rest) := by
  refine ⟨?_, ?_⟩
  · rintro d ⟨⟩
    rfl
  · rintro d rest' ⟨⟩
    exact hc

section Read

variable {name : RuleId → String} {D : RuleId → Prop}

namespace Item

/-- Every item of a phrase begins with a blank, so an item is followed by a blank if the phrase
is. -/
theorem followsItem_writeAll_append (items : List Item) (hr : FollowsItem r) :
    FollowsItem (writeAll name items ++ r) := by
  cases items with
  | nil => exact hr
  | cons item items =>
    rintro c ⟨⟩
    rfl

theorem followsPhrase_writeBars_append (phrases : List (List Item)) (hr : FollowsPhrase r) :
    FollowsPhrase (writeBars name phrases ++ r) := by
  cases phrases with
  | nil => exact hr
  | cons phrase phrases => exact followsPhrase_cons (Or.inr rfl) _

/-- An item does not begin with what closes a phrase. -/
theorem exists_write_eq_cons (hname : Readable name D) {item : Item} (h : item.Refers D) :
    ∃ c rest, item.write name = c :: rest ∧ c ≠ ')' ∧ c ≠ '|' := by
  cases item with
  | word w signs =>
    obtain ⟨c, rest, hw, hc⟩ := Word.exists_write_eq_cons hname h
    refine ⟨c, rest ++ writeSigns signs, by rw [write, hw]; rfl, ?_⟩
    simp_all
  | group first others signs => exact ⟨'(', _, rfl, by decide, by decide⟩

/-- A phrase that has ended has no further item. -/
theorem not_followsPhrase_cons (hname : Readable name D) {item : Item} (h : item.Refers D)
    (rest : List Char) :
    ¬ FollowsPhrase (' ' :: (item.write name ++ rest)) := by
  rintro ⟨-, hcloses⟩
  obtain ⟨c, more, hitem, hc, hc'⟩ := exists_write_eq_cons hname h
  rw [hitem, List.cons_append] at hcloses
  rcases hcloses c _ rfl with h | h
  · exact hc h
  · exact hc' h

mutual

/-- **Reading an item.** -/
theorem append_inj (hname : Readable name D) : ∀ (i j : Item) {r s : List Char},
    i.Refers D → j.Refers D → FollowsItem r → FollowsItem s →
    i.write name ++ r = j.write name ++ s → i = j ∧ r = s
  | .word v signs, .word w signs', r, s, hv, hw, hr, hs, h => by
    rw [write, write, List.append_assoc, List.append_assoc] at h
    obtain ⟨rfl, hsigns⟩ := Word.append_inj hname hv hw (hr.followsWord signs)
      (hs.followsWord signs') h
    obtain ⟨rfl, hrest⟩ := writeSigns_append_inj hr hs hsigns
    exact ⟨rfl, hrest⟩
  | .word v signs, .group first others signs', r, s, hv, _, _, _, h => by
    obtain ⟨c, rest, hc, hne⟩ := Word.exists_write_eq_cons hname hv
    rw [write, write, hc] at h
    obtain rfl : c = '(' := (List.cons.inj h).1
    exact absurd hne (by decide)
  | .group first others signs, .word w signs', r, s, _, hw, _, _, h => by
    obtain ⟨c, rest, hc, hne⟩ := Word.exists_write_eq_cons hname hw
    rw [write, write, hc] at h
    obtain rfl : '(' = c := (List.cons.inj h).1
    exact absurd hne (by decide)
  | .group first others signs, .group first' others' signs', r, s, hi, hj, hr, hs, h => by
    simp only [write, List.cons_append, List.append_assoc, List.cons.injEq, true_and] at h
    have hclose : ∀ rest, FollowsPhrase (' ' :: ')' :: rest) := followsPhrase_cons (Or.inl rfl)
    obtain ⟨rfl, hothers⟩ := writeAll_append_inj hname first first' hi.1 hj.1
      (followsPhrase_writeBars_append others (hclose _))
      (followsPhrase_writeBars_append others' (hclose _)) h
    obtain ⟨rfl, hsigns⟩ := writeBars_append_inj hname others others' hi.2 hj.2 hothers
    obtain ⟨rfl, hrest⟩ := writeSigns_append_inj hr hs hsigns
    exact ⟨rfl, hrest⟩

/-- **Reading a phrase.** -/
theorem writeAll_append_inj (hname : Readable name D) : ∀ (is js : List Item) {r s : List Char},
    AllRefer D is → AllRefer D js → FollowsPhrase r → FollowsPhrase s →
    writeAll name is ++ r = writeAll name js ++ s → is = js ∧ r = s
  | [], [], r, s, _, _, _, _, h => ⟨rfl, h⟩
  -- Where one phrase ends, the other cannot go on: what follows is not an item.
  | [], j :: js, r, s, _, hj, hr, _, h => by
    rw [writeAll, List.nil_append, writeAll, List.cons_append, List.append_assoc] at h
    exact absurd (h ▸ hr) (not_followsPhrase_cons hname hj.1 _)
  | i :: is, [], r, s, hi, _, _, hs, h => by
    rw [writeAll, writeAll, List.nil_append, List.cons_append, List.append_assoc] at h
    exact absurd (h.symm ▸ hs) (not_followsPhrase_cons hname hi.1 _)
  | i :: is, j :: js, r, s, hi, hj, hr, hs, h => by
    simp only [writeAll, List.cons_append, List.append_assoc, List.cons.injEq, true_and] at h
    obtain ⟨rfl, hrest⟩ := append_inj hname i j hi.1 hj.1 (followsItem_writeAll_append is hr.1)
      (followsItem_writeAll_append js hs.1) h
    obtain ⟨rfl, hend⟩ := writeAll_append_inj hname is js hi.2 hj.2 hr hs hrest
    exact ⟨rfl, hend⟩

/-- Reading the phrases of a group up to its closing parenthesis. -/
theorem writeBars_append_inj (hname : Readable name D) : ∀ (is js : List (List Item))
    {r s : List Char}, EachRefers D is → EachRefers D js →
    writeBars name is ++ ' ' :: ')' :: r = writeBars name js ++ ' ' :: ')' :: s → is = js ∧ r = s
  | [], [], r, s, _, _, h => by simpa [writeBars] using h
  | [], j :: js, r, s, _, _, h => by simp [writeBars] at h
  | i :: is, [], r, s, _, _, h => by simp [writeBars] at h
  | i :: is, j :: js, r, s, hi, hj, h => by
    simp only [writeBars, List.cons_append, List.append_assoc, List.cons.injEq, true_and] at h
    have hclose : ∀ rest, FollowsPhrase (' ' :: ')' :: rest) := followsPhrase_cons (Or.inl rfl)
    obtain ⟨rfl, hrest⟩ := writeAll_append_inj hname i j hi.1 hj.1
      (followsPhrase_writeBars_append is (hclose _))
      (followsPhrase_writeBars_append js (hclose _)) h
    obtain ⟨rfl, hend⟩ := writeBars_append_inj hname is js hi.2 hj.2 hrest
    exact ⟨rfl, hend⟩

end

theorem allRefer_append {items more : List Item} :
    AllRefer D (items ++ more) ↔ AllRefer D items ∧ AllRefer D more := by
  induction items with
  | nil => simp [AllRefer]
  | cons item items ih => simp [AllRefer, ih, and_assoc]

theorem eachRefers_iff {phrases : List (List Item)} :
    EachRefers D phrases ↔ ∀ phrase ∈ phrases, AllRefer D phrase := by
  induction phrases with
  | nil => simp [EachRefers]
  | cons phrase phrases ih => simp [EachRefers, ih]

theorem allRefer_flatten {phrases : List (List Item)} :
    AllRefer D phrases.flatten ↔ ∀ phrase ∈ phrases, AllRefer D phrase := by
  induction phrases with
  | nil => simp [AllRefer]
  | cons phrase phrases ih => simp [allRefer_append, ih]

theorem allRefer_signLast {b : Bounds} {items : List Item} (h : AllRefer D items) :
    AllRefer D (signLast b items) := by
  induction items with
  | nil => exact h
  | cons item items ih =>
    cases items with
    | nil => cases item <;> exact h
    | cons next items => exact ⟨h.1, ih h.2⟩

end Item

namespace Expr

/-- A phrase names no rule that its expression does not refer to. -/
theorem allRefer_phrase {e : Expr} (h : ∀ id ∈ e.refs, D id) : Item.AllRefer D e.phrase := by
  induction e using elementInduction with
  | terminal t => exact ⟨trivial, trivial⟩
  | rule id => exact ⟨h id List.mem_cons_self, trivial⟩
  | sequence es ih =>
    rw [phrase, phrases_eq_map, Item.allRefer_flatten, List.forall_mem_map]
    exact fun e he => ih e he fun id hid => h id (mem_refsAll_iff.mpr ⟨e, he, hid⟩)
  | choice es ih =>
    have hes : ∀ e ∈ es, Item.AllRefer D e.phrase :=
      fun e he => ih e he fun id hid => h id (mem_refsAll_iff.mpr ⟨e, he, hid⟩)
    rw [phrase, phrases_eq_map]
    cases es with
    | nil => trivial
    | cons first others =>
      rw [List.forall_mem_cons] at hes
      exact ⟨⟨hes.1, Item.eachRefers_iff.mpr (List.forall_mem_map.mpr hes.2)⟩, trivial⟩
  | repeated e b ih =>
    rw [phrase]
    split
    · exact ⟨⟨ih h, trivial⟩, trivial⟩
    · exact Item.allRefer_signLast (ih h)

/-- **The text determines the phrase.** -/
theorem phrase_eq_of_write_eq (hname : Readable name D) {p q : Expr} (hp : p.Solid) (hq : q.Solid)
    (hprefs : ∀ id ∈ p.refs, D id) (hqrefs : ∀ id ∈ q.refs, D id)
    (h : p.write name = q.write name) : p.phrase = q.phrase := by
  have hwrite : Item.writeAll name p.phrase ++ [] = Item.writeAll name q.phrase ++ [] := by
    rw [← cons_write_eq hp, ← cons_write_eq hq, h]
  exact (Item.writeAll_append_inj hname _ _ (allRefer_phrase hprefs) (allRefer_phrase hqrefs)
    followsPhrase_nil followsPhrase_nil hwrite).1

end Expr

end Read

end PegGrammar
