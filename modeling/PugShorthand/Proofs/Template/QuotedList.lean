import PugShorthand.Proofs.Nesting.Balance
import PugShorthand.Proofs.Template.Element

namespace PugShorthand.Template

structure QuotedAttribute where
  name : Text
  value : Text
  named : name ≠ []
  lower : ∀ b ∈ name, Text.isLower b = true
  whole : value.IsUtf8
  unquoted : '"'.toUInt8 ∉ value
  unescaped : '\\'.toUInt8 ∉ value

namespace QuotedAttribute

variable {attributes : List QuotedAttribute} {keep : UInt8 → Bool}

def text (a : QuotedAttribute) : Text :=
  a.name ++ Text.ofString "=\"" ++ a.value ++ Text.ofString "\""

def listing (attributes : List QuotedAttribute) : Text :=
  (Text.ofString " ").intercalate (attributes.map text)

theorem ascii_of_isLower {b : UInt8} : Text.isLower b = true → b < 0x80 :=
  Text.forall_byte (p := fun b => Text.isLower b = true → b < 0x80) (by decide +kernel) b

theorem isUtf8_listing : (listing attributes).IsUtf8 := by
  have hs := Text.isUtf8_ofString
  refine .intercalate (hs " ") fun t ht => ?_
  obtain ⟨a, _, rfl⟩ := List.mem_map.mp ht
  have hn : a.name.IsUtf8 := .of_ascii fun b hb => ascii_of_isLower (a.lower b hb)
  exact ((hn.append (hs "=\"")).append a.whole).append (hs "\"")

theorem filter_listing (hn : ∀ b, Text.isLower b = true → keep b = false)
    (hm : ∀ b ∈ Text.ofString "=\" ", keep b = false) :
    (listing attributes).filter keep = (attributes.flatMap value).filter keep := by
  have mark {t : Text} (h : t ⊆ Text.ofString "=\" ") : t.filter keep = [] := by
    simpa [List.filter_eq_nil_iff] using fun b hb => hm b (h hb)
  have one (a : QuotedAttribute) : a.text.filter keep = a.value.filter keep := by
    have name : a.name.filter keep = [] := by
      simpa [List.filter_eq_nil_iff] using fun b hb => hn b (a.lower b hb)
    have opening : (Text.ofString "=\"").filter keep = [] := mark (by decide)
    have closing : (Text.ofString "\"").filter keep = [] := mark (by decide)
    simp [text, name, opening, closing]
  have space : (Text.ofString " ").filter keep = [] := mark (by decide)
  induction attributes
  case nil => rfl
  case cons a as hi =>
    cases as
    case nil => simp [listing, one]
    case cons a' as =>
      have hl : listing (a :: a' :: as) = a.text ++ Text.ofString " " ++ listing (a' :: as) :=
        List.intercalate_cons_cons
      have hv : (a :: a' :: as).flatMap value = a.value ++ (a' :: as).flatMap value :=
        List.flatMap_cons
      simp only [hl, hv, List.filter_append, one, space, hi, List.append_nil]

theorem backslash_not_mem_listing : '\\'.toUInt8 ∉ listing attributes := by
  have h := @filter_listing attributes (· == '\\'.toUInt8)
    (Text.forall_byte (by decide +kernel)) (by decide +kernel)
  have hv : (attributes.flatMap value).filter (· == '\\'.toUInt8) = [] := by
    simp only [List.filter_eq_nil_iff, List.mem_flatMap, beq_iff_eq]
    rintro b ⟨a, _, hb⟩ rfl
    exact a.unescaped hb
  exact fun hm => List.filter_eq_nil_iff.mp (h.trans hv) _ hm (beq_self_eq_true _)

theorem balanced_listing_iff :
    Nesting.Balanced '('.toUInt8 ')'.toUInt8 0 (listing attributes) ↔
      Nesting.Balanced '('.toUInt8 ')'.toUInt8 0 (attributes.flatMap value) := by
  let keep (b : UInt8) : Bool := b == '('.toUInt8 || b == ')'.toUInt8
  have hf : (listing attributes).filter keep = (attributes.flatMap value).filter keep :=
    filter_listing (Text.forall_byte (by decide +kernel)) (by decide +kernel)
  have ho : keep '('.toUInt8 = true := by decide
  have hc : keep ')'.toUInt8 = true := by decide
  rw [← Nesting.balanced_filter ho hc, hf, Nesting.balanced_filter ho hc]

end QuotedAttribute

namespace Element

variable {naming : Export.Naming} {t tag rest : Text} {attributes : List QuotedAttribute}
variable {elements : List Element} {name list : Span} {stop : Nat}

structure IsTagName (tag : Text) : Prop where
  named : tag ≠ []
  bytes : ∀ b ∈ tag, isNameByte b = true
  first : ∀ b ∈ tag.head?, Text.isDigit b = false

theorem tag?_of_isTagName (h : IsTagName tag) :
    tag? ('\n'.toUInt8 :: (tag ++ '('.toUInt8 :: rest)) = some ⟨1, 1 + tag.length⟩ := by
  have hl : 0 < tag.length := List.length_pos_iff.mpr h.named
  have ⟨b, tag', ht⟩ := List.exists_cons_of_ne_nil h.named
  have hb : Text.isIndent b = false :=
    Text.forall_byte (p := fun b => isNameByte b = true → Text.isIndent b = false)
      (by decide +kernel) b (h.bytes b (by simp [ht]))
  have hi : Text.indentation (tag ++ '('.toUInt8 :: rest) = 0 := by
    rw [ht]
    exact Text.run_cons_of_neg hb
  have hr : Text.run isNameByte (tag ++ '('.toUInt8 :: rest) = tag.length :=
    Text.run_append h.bytes (by simp +decide)
  have hd : Text.isDigit b = false := h.first b (by simp [ht])
  have hn : nameLength? (tag ++ '('.toUInt8 :: rest) = some tag.length := by
    have hh : (tag ++ '('.toUInt8 :: rest).head? = some b := by simp [ht]
    simp [nameLength?, hr, hh, hd, Nat.ne_of_gt hl]
  simp [tag?, headOffset?, hi, hn]

theorem exists_cons_of_tag? {element : Element} (ht : tag? t = some name)
    (hr : read naming t name = .ok (element, stop)) (h : scan naming t = .ok elements) :
    ∃ others, elements = element :: others := by
  cases t
  case nil => simp [tag?, headOffset?] at ht
  case cons b t =>
    have hs : name.shift 0 = name := by simp [Span.shift]
    simp only [scan, scan.go, Nat.lt_irrefl, if_false, ht, hs] at h
    obtain ⟨_, hr', h⟩ := Fault.exists_of_bind h
    cases hr.symm.trans hr'
    obtain ⟨others, _, h⟩ := Fault.exists_of_bind h
    exact ⟨others, (Except.ok.inj h).symm⟩

theorem exists_expanded_of_read {element : Element}
    (hr : read naming t name = .ok (element, stop))
    (hf : Nesting.find t name.stop '('.toUInt8 ')'.toUInt8 = .ok (some list)) :
    ∃ tag x, element = .expanded tag list x := by
  have ⟨found, hf', hr⟩ := Fault.exists_of_bind hr
  cases hf.symm.trans hf'
  have ⟨_, _, hr⟩ := Fault.exists_of_bind hr
  have ⟨x, _, hr⟩ := Fault.exists_of_bind hr
  have ⟨tag, _, hr⟩ := Fault.exists_of_bind hr
  simp only [pure, Except.pure, Except.ok.injEq, Prod.mk.injEq] at hr
  exact ⟨tag, x, hr.left.symm⟩

theorem head?_edits_iff (ht : t.IsUtf8) (htag : tag? t = some name)
    (h : scan naming t = .ok elements) :
    (∃ e, (edits elements).head? = some e ∧ e.start = name.stop ∧ e.stop = stop) ↔
      Nesting.find t name.stop '('.toUInt8 ')'.toUInt8 = .ok (some ⟨name.stop, stop⟩) := by
  constructor
  case mp =>
    rintro ⟨e, he, hs, rfl⟩
    obtain ⟨_, _, origin⟩ := exists_origin_of_mem_edits h (List.mem_of_head? he)
    exact hs ▸ origin.found
  case mpr =>
    intro hf
    have hs : name.shift 0 = name := by simp [Span.shift]
    obtain ⟨element, stop', hread, _⟩ := @exists_read t name 0 naming ht htag
    rw [hs] at hread
    obtain ⟨tag, x, rfl⟩ := exists_expanded_of_read hread hf
    obtain ⟨others, rfl⟩ := exists_cons_of_tag? htag hread h
    exact ⟨⟨name.stop, stop, _⟩, rfl, rfl, rfl⟩

-- A quote does not keep a parenthesis from counting: a list of quoted attributes is replaced from
-- its opening to its closing parenthesis if, and only if, the parentheses in the values are
-- balanced.
theorem first_edit_covers_list_iff (naming : Export.Naming) (htag : IsTagName tag)
    (hr : rest.IsUtf8) :
    let list : Text := '('.toUInt8 :: (QuotedAttribute.listing attributes ++ [')'.toUInt8])
    ∃ elements, scan naming ('\n'.toUInt8 :: (tag ++ (list ++ rest))) = .ok elements ∧
      ((∃ e, (edits elements).head? = some e ∧ e.start = 1 + tag.length ∧
          e.stop = 1 + tag.length + list.length) ↔
        Nesting.Balanced '('.toUInt8 ')'.toUInt8 0 (attributes.flatMap QuotedAttribute.value)) := by
  intro list
  have hlist : list ++ rest =
      '('.toUInt8 :: (QuotedAttribute.listing attributes ++ ')'.toUInt8 :: rest) := by simp [list]
  have hname : Text.IsUtf8 tag := .of_ascii fun b hb => ascii_of_isNameByte (htag.bytes b hb)
  have ht : Text.IsUtf8 ('\n'.toUInt8 :: (tag ++ (list ++ rest))) := by
    rw [hlist]
    exact .cons (by decide) (hname.append (.cons (by decide)
      (QuotedAttribute.isUtf8_listing.append (.cons (by decide) hr))))
  have htag? : tag? ('\n'.toUInt8 :: (tag ++ (list ++ rest))) = some ⟨1, 1 + tag.length⟩ :=
    hlist ▸ tag?_of_isTagName htag
  have ⟨elements, hscan, _⟩ := exists_scan naming ht
  refine ⟨elements, hscan, (head?_edits_iff ht htag? hscan).trans ?_⟩
  have hdrop : ('\n'.toUInt8 :: (tag ++ (list ++ rest))).drop (1 + tag.length) =
      '('.toUInt8 :: (QuotedAttribute.listing attributes ++ ')'.toUInt8 :: rest) := by
    rw [Nat.add_comm, List.drop_succ_cons, List.drop_left, hlist]
  have hlength : 1 + tag.length + list.length =
      1 + tag.length + (QuotedAttribute.listing attributes).length + 2 := by
    simp only [list, List.length_cons, List.length_append, List.length_nil]
    omega
  rw [hlength, ← QuotedAttribute.balanced_listing_iff]
  exact Nesting.find_eq_some_iff_balanced hdrop (by decide) (by decide)
    QuotedAttribute.backslash_not_mem_listing

theorem first_edit_covers_list_of_pair :
    let attributes : List QuotedAttribute := [
      { name := .ofString "x", value := .ofString "é(", named := by decide,
        lower := by decide +kernel, whole := Text.isUtf8_ofString _, unquoted := by decide,
        unescaped := by decide },
      { name := .ofString "y", value := .ofString ")", named := by decide,
        lower := by decide +kernel, whole := Text.isUtf8_ofString _, unquoted := by decide,
        unescaped := by decide }]
    IsTagName (.ofString "a.b") ∧
      Nesting.Balanced '('.toUInt8 ')'.toUInt8 0 (attributes.flatMap QuotedAttribute.value) ∧
      ∃ elements, scan {} (.ofString "\na.b(x=\"é(\" y=\")\")\nc)") = .ok elements ∧
        ∃ e, (edits elements).head? = some e ∧ e.start = 4 ∧ e.stop = 19 := by
  intro attributes
  have htag : IsTagName (.ofString "a.b") := ⟨by decide, by decide +kernel, by decide +kernel⟩
  have hb : Nesting.Balanced '('.toUInt8 ')'.toUInt8 0
      (attributes.flatMap QuotedAttribute.value) := by decide +kernel
  have ⟨elements, hs, hiff⟩ := @first_edit_covers_list_iff (.ofString "a.b") (.ofString "\nc)")
    attributes {} htag (Text.isUtf8_ofString _)
  exact ⟨htag, hb, elements, hs, hiff.mpr hb⟩

theorem quoted_parenthesis_closes_list :
    let a : QuotedAttribute :=
      { name := .ofString "x", value := .ofString ")", named := by decide,
        lower := by decide +kernel, whole := Text.isUtf8_ofString _, unquoted := by decide,
        unescaped := by decide }
    let list : Text := '('.toUInt8 :: (QuotedAttribute.listing [a] ++ [')'.toUInt8])
    IsTagName (.ofString "a") ∧
      ∃ elements, scan {} ('\n'.toUInt8 :: (Text.ofString "a" ++ list)) = .ok elements ∧
        (edits elements).head? = some ⟨2, 7, .ofString "( x=\")"⟩ ∧
        ¬∃ e, (edits elements).head? = some e ∧ e.start = 2 ∧ e.stop = 2 + list.length := by
  intro a list
  have htag : IsTagName (.ofString "a") := ⟨by decide, by decide +kernel, by decide +kernel⟩
  have h : (scan {} ('\n'.toUInt8 :: (Text.ofString "a" ++ list))).map (fun es => (edits es).head?) =
      .ok (some ⟨2, 7, .ofString "( x=\")"⟩) := by decide +kernel
  have hlength : list.length = 7 := by decide +kernel
  cases hs : scan {} ('\n'.toUInt8 :: (Text.ofString "a" ++ list))
  case error => simp [hs, Except.map] at h
  case ok elements =>
    rw [hs] at h
    have he : (edits elements).head? = some ⟨2, 7, .ofString "( x=\")"⟩ := Except.ok.inj h
    refine ⟨htag, elements, rfl, he, ?_⟩
    rintro ⟨e, hhead, _, hstop⟩
    cases he.symm.trans hhead
    exact absurd (hlength ▸ hstop) (by decide)

end Element

end PugShorthand.Template
