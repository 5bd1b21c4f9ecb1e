import Mathlib.Data.List.Basic
import PegGrammar.Match.Cursor

/-!
# Positions as splits of a text

The functions on byte offsets walk through a text and count. Everything that is proved about them
goes through one description instead: an offset `n` is a position of a text exactly when the text
splits into a front of `n` bytes and the rest. A text has at most one such split, because no
character takes zero bytes.

The same description serves cursors. `Cursor.Reaches` says that one cursor stands further on in
the text of another; the cursors of a text are those reached from its start, and matching only
ever goes from a cursor to one that it reaches.

## Main results

* `Text.dropBytes?_eq_some_iff`, `takeBytes?_eq_some_iff`, `slice?_eq_some_iff` — the splits
* `Cursor.at?_eq_some_iff` — the cursor at an offset is the one reached from the start
* `Cursor.Reaches.eq_of_offset_eq` — a cursor is determined by its offset
* `Terminal.reaches_of_accept?` — terminals move forward by whole characters
-/

namespace PegGrammar

namespace Text

variable {cs front back rest part : List Char} {n start stop : Nat}

/-! ### Splitting at an offset -/

theorem dropBytes?_append (front back : List Char) :
    dropBytes? (front ++ back) (byteLength front) = some back := by
  induction front with
  | nil => simp
  | cons c front ih =>
    have hc : 0 < c.utf8Size := c.utf8Size_pos
    obtain ⟨k, hk⟩ : ∃ k, byteLength (c :: front) = k + 1 :=
      Nat.exists_eq_succ_of_ne_zero (by rw [byteLength_cons]; omega)
    rw [List.cons_append, hk, dropBytes?, ← hk, byteLength_cons, if_pos (by omega),
      Nat.add_sub_cancel_left]
    exact ih

theorem dropBytes?_eq_some_iff :
    dropBytes? cs n = some rest ↔ ∃ front, cs = front ++ rest ∧ byteLength front = n := by
  constructor
  · intro h
    fun_induction dropBytes? cs n with
    | case1 cs => exact ⟨[], by simpa using h, rfl⟩
    | case2 => cases h
    | case3 c cs n hc ih =>
      obtain ⟨front, rfl, hn⟩ := ih h
      exact ⟨c :: front, rfl, by rw [byteLength_cons]; omega⟩
    | case4 => cases h
  · rintro ⟨front, rfl, rfl⟩
    exact dropBytes?_append front rest

theorem takeBytes?_append (front back : List Char) :
    takeBytes? (front ++ back) (byteLength front) = some front := by
  induction front with
  | nil => simp
  | cons c front ih =>
    have hc : 0 < c.utf8Size := c.utf8Size_pos
    obtain ⟨k, hk⟩ : ∃ k, byteLength (c :: front) = k + 1 :=
      Nat.exists_eq_succ_of_ne_zero (by rw [byteLength_cons]; omega)
    rw [List.cons_append, hk, takeBytes?, ← hk, byteLength_cons, if_pos (by omega),
      Nat.add_sub_cancel_left, ih, Option.map_some]

theorem takeBytes?_eq_some_iff :
    takeBytes? cs n = some front ↔ ∃ rest, cs = front ++ rest ∧ byteLength front = n := by
  constructor
  · intro h
    fun_induction takeBytes? cs n generalizing front with
    | case1 cs => cases h; exact ⟨cs, rfl, rfl⟩
    | case2 => cases h
    | case3 c cs n hc ih =>
      obtain ⟨tail, htail, rfl⟩ := Option.map_eq_some_iff.mp h
      obtain ⟨rest, rfl, hn⟩ := ih htail
      exact ⟨rest, rfl, by rw [byteLength_cons]; omega⟩
    | case4 => cases h
  · rintro ⟨rest, rfl, rfl⟩
    exact takeBytes?_append front rest

/-- A slice is given exactly if both offsets are ends of characters and in order, and then it is the
part between them. -/
theorem slice?_eq_some_iff :
    slice? cs start stop = some part ↔
      ∃ front back, cs = front ++ part ++ back ∧ byteLength front = start ∧
        start + byteLength part = stop := by
  constructor
  · intro h
    rw [slice?] at h
    split at h
    · obtain ⟨rest, hdrop, htake⟩ := Option.bind_eq_some_iff.mp h
      obtain ⟨front, rfl, hfront⟩ := dropBytes?_eq_some_iff.mp hdrop
      obtain ⟨back, rfl, hpart⟩ := takeBytes?_eq_some_iff.mp htake
      exact ⟨front, back, by simp, hfront, by omega⟩
    · cases h
  · rintro ⟨front, back, rfl, rfl, rfl⟩
    rw [slice?, if_pos (Nat.le_add_right _ _), Nat.add_sub_cancel_left, List.append_assoc,
      dropBytes?_append, Option.bind_some, takeBytes?_append]

/-- A text can be cut at an offset if the offset is the length of some of its first characters. -/
theorem isBoundary_iff :
    isBoundary cs n = true ↔ ∃ front back, cs = front ++ back ∧ byteLength front = n := by
  rw [isBoundary, Option.isSome_iff_exists]
  constructor
  · rintro ⟨back, h⟩
    obtain ⟨front, hcs, hn⟩ := dropBytes?_eq_some_iff.mp h
    exact ⟨front, back, hcs, hn⟩
  · rintro ⟨front, back, hcs, hn⟩
    exact ⟨back, dropBytes?_eq_some_iff.mpr ⟨front, hcs, hn⟩⟩

/-- A text has no position past its end. -/
theorem isBoundary_eq_false_of_lt (h : byteLength cs < n) : isBoundary cs n = false := by
  rw [← Bool.not_eq_true, isBoundary_iff]
  rintro ⟨front, back, rfl, rfl⟩
  rw [byteLength_append] at h
  omega

theorem byteLength_eq_zero_iff : byteLength cs = 0 ↔ cs = [] := by
  cases cs with
  | nil => simp
  | cons c cs => have := c.utf8Size_pos; simp only [byteLength_cons, reduceCtorEq, iff_false]; omega

end Text

namespace Cursor

variable {c d e : Cursor} {text : List Char}

/-! ### Reaching further on -/

/-- `c.Reaches d` when `d` stands in the text after `c`, some whole characters further on or at
the same place, and its offset counts the bytes between the two. -/
def Reaches (c d : Cursor) : Prop :=
  ∃ mid, c.rest = mid ++ d.rest ∧ d.offset = c.offset + Text.byteLength mid

theorem Reaches.refl (c : Cursor) : c.Reaches c := ⟨[], rfl, rfl⟩

theorem Reaches.trans (hcd : c.Reaches d) (hde : d.Reaches e) : c.Reaches e := by
  obtain ⟨m, hm, hd⟩ := hcd
  obtain ⟨l, hl, he⟩ := hde
  exact ⟨m ++ l, by rw [hm, hl, List.append_assoc], by rw [Text.byteLength_append]; omega⟩

theorem Reaches.offset_le (h : c.Reaches d) : c.offset ≤ d.offset := by
  obtain ⟨_, _, hd⟩ := h
  omega

theorem Reaches.length_le (h : c.Reaches d) : d.rest.length ≤ c.rest.length := by
  obtain ⟨m, hm, _⟩ := h
  rw [hm, List.length_append]
  exact Nat.le_add_left _ _

/-- Cursors of one text agree on where it ends. -/
theorem Reaches.offset_add_byteLength_rest (h : c.Reaches d) :
    d.offset + Text.byteLength d.rest = c.offset + Text.byteLength c.rest := by
  obtain ⟨mid, hrest, hoffset⟩ := h
  rw [hrest, hoffset, Text.byteLength_append, Nat.add_assoc]

/-- Consuming a character is the same as advancing the offset: no character is empty. -/
theorem Reaches.length_lt_iff (h : c.Reaches d) :
    d.rest.length < c.rest.length ↔ c.offset < d.offset := by
  obtain ⟨m, hm, hd⟩ := h
  rw [hm, hd, List.length_append]
  cases m with
  | nil => simp
  | cons x m => have := x.utf8Size_pos; simp only [List.length_cons, Text.byteLength_cons]; omega

/-- A cursor further on in a text is determined by its offset. -/
theorem Reaches.eq_of_offset_eq (hd : c.Reaches d) (he : c.Reaches e)
    (h : d.offset = e.offset) : d = e := by
  obtain ⟨m, hm, hdo⟩ := hd
  obtain ⟨l, hl, heo⟩ := he
  have hlen : Text.byteLength m = Text.byteLength l := by omega
  have hrest : some d.rest = some e.rest := by
    rw [← Text.dropBytes?_append m, ← Text.dropBytes?_append l, ← hm, ← hl, hlen]
  obtain ⟨dOffset, dRest⟩ := d
  obtain ⟨eOffset, eRest⟩ := e
  exact congrArg₂ Cursor.mk h (Option.some.inj hrest)

/-- A cursor further on that has no less text left is the same. -/
theorem Reaches.eq_of_length_le (h : c.Reaches d) (hlen : c.rest.length ≤ d.rest.length) :
    d = c := by
  have hoff := h.length_lt_iff.not.mp (Nat.not_lt_of_le hlen)
  exact h.eq_of_offset_eq (.refl c) (Nat.le_antisymm (Nat.le_of_not_lt hoff) h.offset_le)

/-- Of two cursors further on, the one with the smaller offset reaches the other. -/
theorem Reaches.of_offset_le (hd : c.Reaches d) (he : c.Reaches e) (h : d.offset ≤ e.offset) :
    d.Reaches e := by
  obtain ⟨m, hm, hdo⟩ := hd
  obtain ⟨l, hl, heo⟩ := he
  rcases List.append_eq_append_iff.mp (hm.symm.trans hl) with ⟨k, rfl, hk⟩ | ⟨k, rfl, hk⟩
  · refine ⟨k, hk, ?_⟩
    rw [Text.byteLength_append] at heo
    omega
  · rw [Text.byteLength_append] at hdo
    have hempty : k = [] := Text.byteLength_eq_zero_iff.mp (by omega)
    subst hempty
    exact ⟨[], hk.symm, by rw [Text.byteLength_nil] at hdo ⊢; omega⟩

/-! ### The cursors of a text -/

/-- The cursors of a text are those that are reached from its start, one for each offset at which it
can be cut. -/
theorem at?_eq_some_iff {i : Nat} :
    at? text i = some c ↔ (start text).Reaches c ∧ c.offset = i := by
  rw [at?, Option.map_eq_some_iff]
  constructor
  · rintro ⟨rest, hrest, rfl⟩
    obtain ⟨front, rfl, hi⟩ := Text.dropBytes?_eq_some_iff.mp hrest
    exact ⟨⟨front, rfl, by rw [start, Nat.zero_add]; exact hi.symm⟩, rfl⟩
  · rintro ⟨⟨front, hfront, hoff⟩, rfl⟩
    refine ⟨c.rest, Text.dropBytes?_eq_some_iff.mpr ⟨front, hfront, ?_⟩, rfl⟩
    rw [hoff, start, Nat.zero_add]

theorem isBoundary_offset (h : (start text).Reaches c) :
    Text.isBoundary text c.offset = true := by
  obtain ⟨front, hfront, hoff⟩ := h
  exact Text.isBoundary_iff.mpr ⟨front, c.rest, hfront, by rw [hoff, start, Nat.zero_add]⟩

theorem exists_at?_of_isBoundary {i : Nat} (h : Text.isBoundary text i = true) :
    ∃ c, at? text i = some c := by
  rw [Text.isBoundary, Option.isSome_iff_exists] at h
  obtain ⟨rest, hrest⟩ := h
  exact ⟨⟨i, rest⟩, by rw [at?, hrest, Option.map_some]⟩

/-- What is left after a cursor of a text takes the bytes that its offset leaves. -/
theorem offset_add_byteLength_rest (h : (start text).Reaches c) :
    c.offset + Text.byteLength c.rest = Text.byteLength text := by
  rw [h.offset_add_byteLength_rest]
  exact Nat.zero_add _

theorem offset_le_byteLength (h : (start text).Reaches c) : c.offset ≤ Text.byteLength text := by
  have := offset_add_byteLength_rest h
  omega

theorem rest_eq_nil_iff (h : (start text).Reaches c) :
    c.rest = [] ↔ c.offset = Text.byteLength text := by
  have := offset_add_byteLength_rest h
  rw [← Text.byteLength_eq_zero_iff]
  omega

/-- The text between two cursors. -/
theorem slice?_eq_some_of_reaches (hc : (start text).Reaches c) (hd : c.Reaches d) :
    ∃ part, Text.slice? text c.offset d.offset = some part ∧ c.rest = part ++ d.rest := by
  obtain ⟨front, hfront, hoff⟩ := hc
  obtain ⟨part, hpart, hoff'⟩ := hd
  refine ⟨part, Text.slice?_eq_some_iff.mpr ⟨front, d.rest, ?_, ?_, hoff'.symm⟩, hpart⟩
  · rw [List.append_assoc, ← hpart]; exact hfront
  · rw [hoff, start, Nat.zero_add]

/-- The text between two positions. -/
theorem exists_split_of_isBoundary {i j : Nat} (hi : Text.isBoundary text i = true)
    (hj : Text.isBoundary text j = true) (hij : i ≤ j) :
    ∃ front part back, text = front ++ part ++ back ∧ Text.byteLength front = i ∧
      Text.byteLength (front ++ part) = j := by
  obtain ⟨c, hc⟩ := exists_at?_of_isBoundary hi
  obtain ⟨d, hd⟩ := exists_at?_of_isBoundary hj
  obtain ⟨hreach, rfl⟩ := at?_eq_some_iff.mp hc
  obtain ⟨hreach', rfl⟩ := at?_eq_some_iff.mp hd
  obtain ⟨part, hslice, -⟩ := slice?_eq_some_of_reaches hreach (hreach.of_offset_le hreach' hij)
  obtain ⟨front, back, htext, hfront, hpart⟩ := Text.slice?_eq_some_iff.mp hslice
  exact ⟨front, part, back, htext, hfront, by rw [Text.byteLength_append, hfront, hpart]⟩

/-! ### Single moves -/

/-- Stepping over a character, as a statement about the texts ahead of the two cursors. -/
theorem next?_eq_some_iff {p : Char → Bool} :
    c.next? p = some d ↔
      ∃ x, c.rest = x :: d.rest ∧ p x = true ∧ d.offset = c.offset + x.utf8Size := by
  obtain ⟨offset, rest⟩ := c
  obtain ⟨dOffset, dRest⟩ := d
  cases rest with
  | nil => simp [next?]
  | cons x rest =>
    simp only [next?, Option.ite_none_right_eq_some, Option.some.injEq, mk.injEq, List.cons.injEq]
    constructor
    · rintro ⟨hx, rfl, rfl⟩
      exact ⟨x, ⟨rfl, rfl⟩, hx, rfl⟩
    · rintro ⟨_, ⟨rfl, rfl⟩, hx, rfl⟩
      exact ⟨hx, rfl, rfl⟩

theorem skip?_eq_some_iff {part : List Char} :
    c.skip? part = some d ↔
      c.rest = part ++ d.rest ∧ d.offset = c.offset + Text.byteLength part := by
  obtain ⟨dOffset, dRest⟩ := d
  rw [skip?, Option.map_eq_some_iff]
  simp only [List.isPrefixOf?_eq_some_iff_append_eq, mk.injEq]
  constructor
  · rintro ⟨rest, hrest, rfl, rfl⟩
    exact ⟨hrest.symm, rfl⟩
  · rintro ⟨hrest, rfl⟩
    exact ⟨dRest, hrest.symm, rfl, rfl⟩

theorem reaches_of_next? {p : Char → Bool} (h : c.next? p = some d) : c.Reaches d := by
  obtain ⟨x, hx, _, hoff⟩ := next?_eq_some_iff.mp h
  exact ⟨[x], hx, by rw [hoff, Text.byteLength_cons, Text.byteLength_nil, Nat.add_zero]⟩

theorem reaches_of_skip? {part : List Char} (h : c.skip? part = some d) : c.Reaches d :=
  ⟨part, skip?_eq_some_iff.mp h⟩

end Cursor

/-- Terminals move forward, by the text that they accept. All other facts about where matches end
come from this one. -/
theorem Terminal.reaches_of_accept? {t : Terminal} {c d : Cursor} (h : t.accept? c = some d) :
    c.Reaches d := by
  cases t with
  | literal text => exact Cursor.reaches_of_skip? h
  | charSet set => exact Cursor.reaches_of_next? h
  | charRange first last => exact Cursor.reaches_of_next? h
  | any => exact Cursor.reaches_of_next? h
  | endOfInput =>
    simp only [accept?, Option.ite_none_right_eq_some, Option.some.injEq] at h
    rw [← h.2]
    exact Cursor.Reaches.refl c

end PegGrammar
