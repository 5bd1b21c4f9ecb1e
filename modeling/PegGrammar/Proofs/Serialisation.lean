import Mathlib.Data.List.Nodup
import PegGrammar.Tree.Codec

/-!
# Serialised trees are read back

Whatever a syntax tree holds, it is the tree that is read from its own value. That includes trees
that no parse yields, because neither writing nor reading asks whether labels, spans and lexemes fit
each other.

A value may also have been extended on its way: somebody has added fields of their own to some of
its records, and the order of the fields may have changed, which has no meaning in an object. The
same tree is read from it. So no value comes from two trees, extended or not.

## What may be extended

Objects are used for two things. Those of trees, leaves, branches and spans are records, and fields
with names that such a record does not have are passed over. The object around a case has its only
field to say which case it is. One more field there, and it says nothing. `Data.ExtendsTo` tells the
two apart by the names of the fields, and adds to records only, at any depth and wherever in the
record.

An added field may have a name that a record of another kind has: a branch with a field "text" is
read as a branch.

## Main definitions

* `Data.recordFields` — the fields of each kind of record
* `Data.ExtendsTo` — values and what they are when fields have been added

## Main results

* `Data.ExtendsTo.exists_fields` — the fields of an extended record are found under their names
* `Node.decode?_of_extendsTo` — reading an extended node
* `serialised_tree_reads_back` — reading an extended tree
-/

namespace PegGrammar

/-! ### Fields -/

namespace Data

variable {d e : Data} {ds es : List Data} {fields kept : List (String × Data)}

/-- A field is found under its name if there is no other field of that name. -/
theorem field?_eq_some_of_mem {name : String} (hmem : (name, d) ∈ fields)
    (honly : ∀ e, (name, e) ∈ fields → e = d) : field? name fields = some d := by
  induction fields with
  | nil => exact absurd hmem List.not_mem_nil
  | cons head fields ih =>
    obtain ⟨key, value⟩ := head
    by_cases hkey : key = name
    · rw [field?, if_pos hkey, honly value (hkey ▸ List.mem_cons_self)]
    · have hne : (name, d) ≠ (key, value) := fun heq => hkey (Prod.ext_iff.mp heq).1.symm
      rw [field?, if_neg hkey]
      exact ih (List.mem_of_ne_of_mem hne hmem) fun e he => honly e (List.mem_cons_of_mem _ he)

theorem mem_of_field?_eq_some {name : String} (h : field? name fields = some d) :
    (name, d) ∈ fields := by
  induction fields with
  | nil => cases h
  | cons head fields ih =>
    obtain ⟨key, value⟩ := head
    rw [field?] at h
    split at h
    next hkey =>
      cases h
      exact hkey ▸ List.mem_cons_self
    next => exact List.mem_cons_of_mem _ (ih h)

/-! ### Extended values -/

/-- The names of the fields of a record: of a tree, a leaf, a branch or a span. -/
def recordFields : List (List String) :=
  [["root"], ["label", "range", "text"], ["label", "range", "children"], ["start", "end"]]

mutual

/-- The second value is the first one after fields have been added to some of its records, at any
depth. -/
inductive ExtendsTo : Data → Data → Prop
  /-- Nothing has been added. -/
  | same (d : Data) : ExtendsTo d d
  /-- Something has been added to the items of an array. -/
  | array {ds es : List Data} : ExtendsToEach ds es → ExtendsTo (.array ds) (.array es)
  /-- Something has been added to the part of a case. -/
  | part {name : String} {d e : Data} :
    ExtendsTo d e → ExtendsTo (.object [(name, d)]) (.object [(name, e)])
  /-- Something has been added to the fields of a record, and it has got fields of other names.
  They may stand anywhere. -/
  | record {fields kept added all : List (String × Data)} :
    fields.map Prod.fst ∈ recordFields → ExtendsToFields fields kept →
    (∀ field ∈ added, field.1 ∉ fields.map Prod.fst) → all.Perm (kept ++ added) →
    ExtendsTo (.object fields) (.object all)

/-- Each value of the second list is that of the first after fields have been added to it. -/
inductive ExtendsToEach : List Data → List Data → Prop
  /-- There are no values. -/
  | nil : ExtendsToEach [] []
  /-- Value by value. -/
  | cons {d e : Data} {ds es : List Data} :
    ExtendsTo d e → ExtendsToEach ds es → ExtendsToEach (d :: ds) (e :: es)

/-- Each field of the second list has the name of that of the first, and its value after fields
have been added to it. -/
inductive ExtendsToFields : List (String × Data) → List (String × Data) → Prop
  /-- There are no fields. -/
  | nil : ExtendsToFields [] []
  /-- Field by field. -/
  | cons {name : String} {d e : Data} {fields kept : List (String × Data)} :
    ExtendsTo d e → ExtendsToFields fields kept →
    ExtendsToFields ((name, d) :: fields) ((name, e) :: kept)

end

theorem ExtendsToEach.same (ds : List Data) : ExtendsToEach ds ds := by
  induction ds with
  | nil => exact .nil
  | cons d ds ih => exact .cons (.same d) ih

theorem ExtendsToFields.same (fields : List (String × Data)) : ExtendsToFields fields fields := by
  induction fields with
  | nil => exact .nil
  | cons field fields ih => exact .cons (.same field.2) ih

theorem ExtendsToFields.map_fst_eq {fields kept : List (String × Data)}
    (h : ExtendsToFields fields kept) : kept.map Prod.fst = fields.map Prod.fst := by
  induction fields generalizing kept with
  | nil => cases h; rfl
  | cons field fields ih =>
    cases h with
    | cons _ hrest => rw [List.map_cons, List.map_cons, ih hrest]

theorem ExtendsToFields.exists_of_mem {fields kept : List (String × Data)}
    (h : ExtendsToFields fields kept) {name : String} {d : Data} (hmem : (name, d) ∈ fields) :
    ∃ e, (name, e) ∈ kept ∧ d.ExtendsTo e := by
  induction fields generalizing kept with
  | nil => exact absurd hmem List.not_mem_nil
  | cons field fields ih =>
    cases h with
    | cons hfirst hrest =>
      rcases List.mem_cons.mp hmem with heq | hmem
      · cases heq
        exact ⟨_, List.mem_cons_self, hfirst⟩
      · obtain ⟨e, he, hextends⟩ := ih hrest hmem
        exact ⟨e, List.mem_cons_of_mem _ he, hextends⟩

namespace ExtendsTo

theorem eq_text {s : String} (h : (Data.text s).ExtendsTo d) : d = .text s := by
  cases h
  rfl

theorem eq_ofNat {n : Nat} (h : (Data.ofNat n).ExtendsTo d) : d = .ofNat n := by
  cases h
  rfl

theorem exists_items (h : (Data.array ds).ExtendsTo d) :
    ∃ es, d = .array es ∧ ExtendsToEach ds es := by
  cases h with
  | same => exact ⟨ds, rfl, .same ds⟩
  | array hitems => exact ⟨_, rfl, hitems⟩

/-- An object that is no record is extended by extending its part. -/
theorem exists_part {name : String} (hname : [name] ∉ recordFields)
    (h : (Data.object [(name, d)]).ExtendsTo e) :
    ∃ d', e = .object [(name, d')] ∧ d.ExtendsTo d' := by
  cases h with
  | same => exact ⟨d, rfl, .same d⟩
  | part hpart => exact ⟨_, rfl, hpart⟩
  | record hrecord => exact absurd hrecord hname

/-- **The fields of an extended record** are found under their names, each with its value
extended. -/
theorem exists_fields (hrecord : fields.map Prod.fst ∈ recordFields)
    (h : (Data.object fields).ExtendsTo e) :
    ∃ all, e = .object all ∧
      ∀ name {d}, field? name fields = some d →
        ∃ d', field? name all = some d' ∧ d.ExtendsTo d' := by
  have hparts : ∃ kept added all, e = .object all ∧ ExtendsToFields fields kept ∧
      (∀ field ∈ added, field.1 ∉ fields.map Prod.fst) ∧ all.Perm (kept ++ added) := by
    cases h with
    | same => exact ⟨fields, [], fields, rfl, .same fields, nofun, by simp⟩
    | @part name d d' hpart =>
      exact ⟨[(name, d')], [], [(name, d')], rfl, .cons hpart .nil, nofun, by simp⟩
    | record _ hkept hadded hall => exact ⟨_, _, _, rfl, hkept, hadded, hall⟩
  obtain ⟨kept, added, all, rfl, hkept, hadded, hall⟩ := hparts
  have hnodup : ∀ names ∈ recordFields, names.Nodup := by decide
  have hkeys := hnodup _ hrecord
  rw [← hkept.map_fst_eq] at hkeys hadded
  refine ⟨all, rfl, fun name d hfield => ?_⟩
  obtain ⟨d', hd', hextends⟩ := hkept.exists_of_mem (mem_of_field?_eq_some hfield)
  refine ⟨d', field?_eq_some_of_mem (hall.mem_iff.mpr (List.mem_append_left _ hd')) ?_, hextends⟩
  intro other hother
  rcases List.mem_append.mp (hall.mem_iff.mp hother) with hother | hother
  · exact (Prod.ext_iff.mp (List.inj_on_of_nodup_map hkeys hother hd' rfl)).2
  · exact absurd (List.mem_map_of_mem hd') (hadded (name, other) hother)

/-- Fields may be added in front of those that a record has. -/
theorem inFront (added : List (String × Data)) (hrecord : fields.map Prod.fst ∈ recordFields)
    (hkept : ExtendsToFields fields kept)
    (hadded : ∀ field ∈ added, field.1 ∉ fields.map Prod.fst) :
    (Data.object fields).ExtendsTo (.object (added ++ kept)) :=
  .record hrecord hkept hadded List.perm_append_comm

end ExtendsTo

/-! ### Reading -/

theorem word?_ofNat (n : UInt32) : (ofNat n.toNat).word? = some n := by
  have hword : (ofNat n.toNat).word?
      = if n.toNat < UInt32.size then some n.toNat.toUInt32 else none := rfl
  rw [hword, if_pos n.toNat_lt_size, Nat.toUInt32_eq, UInt32.ofNat_toNat]

/-- A record of three parts is read by the names of the parts. -/
theorem parts?_object {first second third : String} {a b c : Data}
    (hfirst : field? first fields = some a) (hsecond : field? second fields = some b)
    (hthird : field? third fields = some c) :
    (object fields).parts? first second third = some (a, b, c) := by
  rw [parts?, hfirst, hsecond, hthird]
  rfl

end Data

open Data

variable {d : Data}

theorem Span.decode?_of_extendsTo {s : Span} (h : s.encode.ExtendsTo d) :
    Span.decode? d = some s := by
  obtain ⟨all, rfl, hfields⟩ := h.exists_fields (by simp [recordFields])
  obtain ⟨start, hstart, hs⟩ := hfields "start" rfl
  obtain ⟨stop, hstop, he⟩ := hfields "end" rfl
  obtain rfl := hs.eq_ofNat
  obtain rfl := he.eq_ofNat
  simp [Span.decode?, hstart, hstop, word?_ofNat]

theorem Label.decode?_encode (label : Label) : Label.decode? label.encode = some label := by
  cases label with
  | rule name => rfl
  | repeated bounds => cases bounds <;> rfl
  | sequence | choice | literal | charSet | charRange | any | endOfInput => rfl

/-- Nothing can be added to a label. -/
theorem Label.eq_of_extendsTo {label : Label} (h : label.encode.ExtendsTo d) :
    d = label.encode := by
  cases label with
  | rule | repeated =>
    obtain ⟨part, rfl, hpart⟩ := h.exists_part (by decide)
    rw [hpart.eq_text]
    rfl
  | sequence | choice | literal | charSet | charRange | any | endOfInput => exact h.eq_text

theorem Label.decode?_of_extendsTo {label : Label} (h : label.encode.ExtendsTo d) :
    Label.decode? d = some label := by
  rw [Label.eq_of_extendsTo h, label.decode?_encode]

mutual

/-- **Reading a node** whose value has been extended. -/
theorem Node.decode?_of_extendsTo (n : Node String) {d : Data} (h : n.encode.ExtendsTo d) :
    Node.decode? d = some n := by
  cases n with
  | leaf label span lexeme =>
    rw [Node.encode] at h
    obtain ⟨record, rfl, hrecord⟩ := h.exists_part (by decide)
    obtain ⟨all, rfl, hfields⟩ := hrecord.exists_fields (by simp [recordFields])
    obtain ⟨l, hl, hlabel⟩ := hfields "label" rfl
    obtain ⟨r, hr, hrange⟩ := hfields "range" rfl
    obtain ⟨t, ht, htext⟩ := hfields "text" rfl
    obtain rfl := htext.eq_text
    simp only [Node.decode?, parts?_object hl hr ht, Label.decode?_of_extendsTo hlabel,
      Span.decode?_of_extendsTo hrange]
    rfl
  | branch label span children =>
    rw [Node.encode] at h
    obtain ⟨record, rfl, hrecord⟩ := h.exists_part (by decide)
    obtain ⟨all, rfl, hfields⟩ := hrecord.exists_fields (by simp [recordFields])
    obtain ⟨l, hl, hlabel⟩ := hfields "label" rfl
    obtain ⟨r, hr, hrange⟩ := hfields "range" rfl
    obtain ⟨c, hc, hchildren⟩ := hfields "children" rfl
    obtain ⟨items, rfl, hitems⟩ := hchildren.exists_items
    have hparts := parts?_object hl hr hc
    rw [Node.decode?]
    split
    next hparts' =>
      cases hparts.symm.trans hparts'
      simp [Label.decode?_of_extendsTo hlabel, Span.decode?_of_extendsTo hrange,
        Node.decodeAll?_of_extendsToEach children hitems]
    next hother => exact absurd hparts (hother _ _ _)

/-- **Reading nodes** whose values have been extended. -/
theorem Node.decodeAll?_of_extendsToEach (ns : List (Node String)) {ds : List Data}
    (h : ExtendsToEach (Node.encodeAll ns) ds) : Node.decodeAll? ds = some ns := by
  cases ns with
  | nil =>
    cases h
    rw [Node.decodeAll?]
  | cons n ns =>
    rw [Node.encodeAll] at h
    obtain _ | ⟨hfirst, hrest⟩ := h
    simp only [Node.decodeAll?, Node.decode?_of_extendsTo n hfirst,
      Node.decodeAll?_of_extendsToEach ns hrest]
    rfl

end

/-- **Reading a tree** whose value has been extended. -/
theorem SyntaxTree.decode?_of_extendsTo {t : SyntaxTree} (h : t.encode.ExtendsTo d) :
    SyntaxTree.decode? d = some t := by
  obtain ⟨all, rfl, hfields⟩ := h.exists_fields (by simp [recordFields])
  obtain ⟨root, hroot, hnode⟩ := hfields "root" rfl
  simp [SyntaxTree.decode?, hroot, Node.decode?_of_extendsTo t.root hnode]

/-- **A serialised tree is read back**, whatever it holds, and also after fields that its records do
not have were added to any of them. So different trees have different values, and no value is what
two trees come to when fields are added to theirs. -/
theorem serialised_tree_reads_back :
    (∀ t : SyntaxTree, SyntaxTree.decode? t.encode = some t) ∧
    (∀ (t : SyntaxTree) (d : Data), t.encode.ExtendsTo d → SyntaxTree.decode? d = some t) ∧
    (∀ t u : SyntaxTree, t.encode = u.encode → t = u) ∧
    ∀ (t u : SyntaxTree) (d : Data), t.encode.ExtendsTo d → u.encode.ExtendsTo d → t = u := by
  have hunique : ∀ (t u : SyntaxTree) (d : Data), t.encode.ExtendsTo d → u.encode.ExtendsTo d →
      t = u := by
    intro t u d ht hu
    have hread := SyntaxTree.decode?_of_extendsTo ht
    rw [SyntaxTree.decode?_of_extendsTo hu] at hread
    exact (Option.some.inj hread).symm
  refine ⟨fun t => SyntaxTree.decode?_of_extendsTo (.same _),
    fun t d h => SyntaxTree.decode?_of_extendsTo h, fun t u heq => ?_, hunique⟩
  exact hunique t u u.encode (heq ▸ .same _) (.same _)

/-! ### A tree that no parse yields -/

/-- A leaf with the label of a sequence, and a branch with the label of a terminal, which ends
before it starts. -/
def misfit : SyntaxTree :=
  ⟨.branch .literal ⟨5, 2⟩ [.leaf .sequence ⟨0, 4294967295⟩ "elsewhere"]⟩

/-- The value of the branch's span, with a field between the others, which have changed places. -/
def extendedSpan : Data :=
  .object [("end", .ofNat 2), ("length", .number (-3) 0), ("start", .ofNat 5)]

/-- The value of the leaf, with a field that branches have. -/
def extendedLeaf : Data :=
  .object [("Leaf", .object [("children", .array []), ("label", .text "Sequence"),
    ("range", Span.encode ⟨0, 4294967295⟩), ("text", .text "elsewhere")])]

/-- The value of the branch, with a field that leaves have. -/
def extendedBranch : Data :=
  .object [("Branch", .object [("text", .null), ("label", .text "Literal"),
    ("range", extendedSpan), ("children", .array [extendedLeaf])])]

/-- The value of the tree, with fields added to each of its records. -/
def extendedMisfit : Data := .object [("version", .ofNat 2), ("root", extendedBranch)]

theorem misfit_extendsTo : misfit.encode.ExtendsTo extendedMisfit := by
  have hrotate : ∀ x y z : String × Data, [x, y, z].Perm ([z, x] ++ [y]) :=
    fun x y z => List.perm_append_singleton z [x, y]
  have hspan : (Span.encode ⟨5, 2⟩).ExtendsTo extendedSpan :=
    .record (by decide) (.same _) (by decide) (hrotate _ ("length", .number (-3) 0) _)
  have hleaf : (Node.leaf .sequence ⟨0, 4294967295⟩ "elsewhere").encode.ExtendsTo extendedLeaf :=
    .part (.inFront [("children", .array [])] (by decide) (.same _) (by decide))
  have hbranch : misfit.root.encode.ExtendsTo extendedBranch :=
    .part (.inFront [("text", .null)] (by decide)
      (.cons (.same _) (.cons hspan (.cons (.array (.cons hleaf .nil)) .nil))) (by decide))
  exact .inFront [("version", .ofNat 2)] (by decide) (.cons hbranch .nil) (by decide)

/-- The tree is read from its value with the fields added, and so from its own. -/
theorem misfit_reads_back :
    misfit.encode.ExtendsTo extendedMisfit ∧
    SyntaxTree.decode? extendedMisfit = some misfit ∧
    SyntaxTree.decode? misfit.encode = some misfit := by
  obtain ⟨hown, hextended, -, -⟩ := serialised_tree_reads_back
  exact ⟨misfit_extendsTo, hextended misfit extendedMisfit misfit_extendsTo, hown misfit⟩

end PegGrammar
