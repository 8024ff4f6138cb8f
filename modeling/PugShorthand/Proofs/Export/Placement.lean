import PugShorthand.Export.Placement
import PugShorthand.Proofs.Attribute.Expander
import PugShorthand.Proofs.Text.WhiteSpace

namespace PugShorthand

variable {t code rest : Text} {naming : Export.Naming}

namespace Export

namespace Table

variable {table : Table} {e : Export} {es : List Export}

def IsWhole (table : Table) : Prop :=
  ∀ e ∈ table.entries, e.IsWhole

theorem mem_go {x : Export} (h : x ∈ insert.go e es) : x = e ∨ x ∈ es := by
  induction es
  case nil => simpa [insert.go] using h
  case cons y es hi =>
    rw [insert.go] at h
    split at h
    case isTrue => grind
    case isFalse =>
      rcases List.mem_cons.mp h with rfl | h
      · simp
      · grind

theorem IsWhole.insertAll (h : table.IsWhole) (hes : ∀ e ∈ es, e.IsWhole) :
    (table.insertAll es).IsWhole := by
  induction es generalizing table
  case nil => exact h
  case cons e es hi =>
    refine hi (fun x hx => ?_) fun x hx => hes x (by simp [hx])
    rcases mem_go hx with rfl | hx
    · exact hes _ (by simp)
    · exact h x hx

theorem IsWhole.declarations (h : table.IsWhole) (hn : naming.IsWhole) :
    (table.declarations naming).IsUtf8 := by
  have hs := Text.isUtf8_ofString
  refine (hs ";").append (.flatten fun t ht => ?_)
  obtain ⟨e, he, rfl⟩ := List.mem_map.mp ht
  have hb := (hs "let ").append (hn.binding (h e he).name)
  unfold declaration
  cases hi : e.initial
  case none => exact hb.append (hs ";\n")
  case some initial =>
    exact ((hb.append (hs " = ")).append ((h e he).initial initial hi)).append (hs ";\n")

theorem IsWhole.specifiers (h : table.IsWhole) (hn : naming.IsWhole) :
    (table.specifiers naming).IsUtf8 := by
  have hs := Text.isUtf8_ofString
  refine (hs ", ").intercalate fun t ht => ?_
  obtain ⟨e, he, rfl⟩ := List.mem_map.mp ht
  exact ((hn.binding (h e he).name).append (hs " as ")).append (h e he).name

end Table

namespace Placement

variable {table : Table} {block : Span} {pos : Nat}

def opening (white : List Char) : Text :=
  keyword ++ Text.WhiteSpace.spelled white ++ ['{'.toUInt8]

def Opens (code : Text) (block : Span) : Prop :=
  ∃ white, (∀ c ∈ white, Text.WhiteSpace.isWhite c = true) ∧
    opening white <+: code.drop block.start ∧
    block.stop = block.start + (opening white).length

theorem braceLength?_eq_some_iff {length : Nat} : braceLength? t = some length ↔
    ∃ white, (∀ c ∈ white, Text.WhiteSpace.isWhite c = true) ∧
      Text.WhiteSpace.spelled white ++ ['{'.toUInt8] <+: t ∧
      length = (Text.WhiteSpace.spelled white).length + 1 := by
  simp only [braceLength?, Option.ite_none_right_eq_some, Option.some.injEq]
  constructor
  case mp =>
    intro ⟨hb, hl⟩
    have ⟨white, rest, hw, ht, _, hn⟩ := Text.WhiteSpace.exists_spelled t
    rw [hn] at hb hl
    rw [ht, List.drop_left] at hb
    have ⟨behind, hd⟩ := List.head?_eq_some_iff.mp hb
    exact ⟨white, hw, ⟨behind, by simp [ht, hd]⟩, hl.symm⟩
  case mpr =>
    intro ⟨white, hw, ⟨behind, ht⟩, hl⟩
    have ht : t = Text.WhiteSpace.spelled white ++ '{'.toUInt8 :: behind := by simp [← ht]
    have hn := Text.WhiteSpace.leading_spelled hw (@Text.WhiteSpace.width_brace behind)
    rw [ht, hn, List.drop_left]
    exact ⟨rfl, hl.symm⟩

theorem opens_iff : Opens code block ↔
    ∃ afterKeyword length, Text.after? keyword (code.drop block.start) = some afterKeyword ∧
      braceLength? afterKeyword = some length ∧
      block.stop = block.start + keyword.length + length := by
  constructor
  case mp =>
    intro h
    obtain ⟨white, hw, ⟨behind, hd⟩, hs⟩ := h
    have ha : Text.after? keyword (code.drop block.start) =
        some (Text.WhiteSpace.spelled white ++ ['{'.toUInt8] ++ behind) := by
      simp [Text.after?, ← hd, opening]
    refine ⟨_, _, ha, braceLength?_eq_some_iff.mpr ⟨white, hw, List.prefix_append .., rfl⟩, ?_⟩
    simp [hs, opening, Nat.add_assoc]
  case mpr =>
    intro h
    obtain ⟨afterKeyword, length, ha, hb, hs⟩ := h
    obtain ⟨white, hw, ⟨behind, hd⟩, hl⟩ := braceLength?_eq_some_iff.mp hb
    refine ⟨white, hw, ⟨behind, ?_⟩, by simp [hs, hl, opening, Nat.add_assoc]⟩
    rw [Text.eq_of_after? ha, ← hd]
    simp [opening]

theorem Opens.eq_of_start {other : Span} (h : Opens code block) (ho : Opens code other)
    (hs : block.start = other.start) : block = other := by
  have ⟨_, _, ha, hb, hstop⟩ := opens_iff.mp h
  have ⟨_, _, ha', hb', hstop'⟩ := opens_iff.mp ho
  rw [hs] at ha hstop
  cases ha.symm.trans ha'
  cases hb.symm.trans hb'
  cases block
  cases other
  cases hs
  cases hstop.trans hstop'.symm
  rfl

theorem Opens.exists_after? (h : Opens code block) :
    ∃ rest, Text.after? keyword (code.drop block.start) = some rest :=
  have ⟨rest, _, ha, _⟩ := opens_iff.mp h
  ⟨rest, ha⟩

-- The first byte of a keyword does not come again in it, so none begins inside another.
theorem after?_keyword_drop {k : Nat} (h : Text.after? keyword t = some rest) (hk : 0 < k)
    (hl : k < keyword.length) : Text.after? keyword (t.drop k) = none := by
  cases ha : Text.after? keyword (t.drop k)
  case none => rfl
  case some rest' =>
    have hfirst : t[k]? = some 'e'.toUInt8 := by
      rw [← List.head?_drop, Text.eq_of_after? ha]
      rfl
    rw [Text.eq_of_after? h, List.getElem?_append_left hl] at hfirst
    have htail : keyword.tail[k - 1]? = some 'e'.toUInt8 := by
      rw [List.getElem?_tail, Nat.sub_add_cancel hk, hfirst]
    exact absurd (List.mem_of_getElem? htail) (by decide)

theorem Opens.le_start (h : Opens code block)
    (hk : Text.after? keyword (code.drop pos) = some rest) (hlt : pos < block.start) :
    pos + keyword.length ≤ block.start := by
  have ⟨_, ha⟩ := h.exists_after?
  refine Nat.le_of_not_lt fun hin => ?_
  have hn := after?_keyword_drop hk (k := block.start - pos) (by omega) (by omega)
  rw [List.drop_drop, Nat.add_sub_cancel' (Nat.le_of_lt hlt), ha] at hn
  cases hn

def FirstFrom (code : Text) (pos : Nat) : Option Span → Prop
  | none => ∀ block, Opens code block → block.start < pos
  | some block =>
    Opens code block ∧ pos ≤ block.start ∧
      ∀ other, Opens code other → pos ≤ other.start → block.start ≤ other.start

theorem FirstFrom.of_succ {found : Option Span} (h : FirstFrom code (pos + 1) found)
    (hn : ∀ block, Opens code block → block.start ≠ pos) : FirstFrom code pos found := by
  cases found
  case none =>
    intro block ho
    have := h block ho
    have := hn block ho
    omega
  case some block =>
    have ⟨ho, hle, hleast⟩ := h
    refine ⟨ho, by omega, fun other ho' hle' => hleast other ho' ?_⟩
    have := hn other ho'
    omega

theorem firstFrom_go {resume : Nat} (hr : code.drop pos = rest)
    (hresume : ∀ block, Opens code block → pos ≤ block.start → resume ≤ block.start) :
    FirstFrom code pos (block?.go pos resume rest) := by
  -- By induction on the rest of the code: no block begins between `pos` and `resume`.
  induction rest generalizing pos resume
  case nil =>
    intro block ho
    refine Nat.lt_of_not_le fun hle => ?_
    have ⟨_, ha⟩ := ho.exists_after?
    rw [List.drop_eq_nil_of_le (Nat.le_trans (List.drop_eq_nil_iff.mp hr) hle)] at ha
    cases ha
  case cons b rest hi =>
    have hr' : code.drop (pos + 1) = rest := Text.drop_succ hr
    have hresume' : ∀ block, Opens code block → pos + 1 ≤ block.start → resume ≤ block.start :=
      fun block ho hle => hresume block ho (by omega)
    rw [block?.go]
    split
    case isTrue hlt =>
      refine (hi hr' hresume').of_succ fun block ho hs => ?_
      have := hresume block ho (by omega)
      omega
    case isFalse =>
      split
      case h_1 hn =>
        refine (hi hr' hresume').of_succ fun block ho hs => ?_
        have ⟨_, ha⟩ := ho.exists_after?
        rw [hs, hr, hn] at ha
        cases ha
      case h_2 afterKeyword hk =>
        split
        case h_1 length hb =>
          have ho : Opens code ⟨pos, pos + keyword.length + length⟩ :=
            opens_iff.mpr ⟨afterKeyword, length, hr ▸ hk, hb, rfl⟩
          exact ⟨ho, Nat.le_refl pos, fun _ _ hle => hle⟩
        case h_2 hn =>
          have hbehind : ∀ block, Opens code block → pos + 1 ≤ block.start →
              pos + keyword.length ≤ block.start := fun block ho hle => ho.le_start (hr ▸ hk) hle
          refine (hi hr' hbehind).of_succ fun block ho hs => ?_
          have ⟨_, _, ha, hb, _⟩ := opens_iff.mp ho
          rw [hs, hr, hk] at ha
          cases ha
          cases hn.symm.trans hb

theorem firstFrom_block? (code : Text) : FirstFrom code 0 (block? code) :=
  firstFrom_go rfl fun _ _ hle => hle

theorem block?_eq_none_iff : block? code = none ↔ ∀ block, ¬Opens code block := by
  have h := firstFrom_block? code
  constructor
  case mp =>
    intro hn block ho
    rw [hn] at h
    exact Nat.not_lt_zero _ (h block ho)
  case mpr =>
    intro hn
    cases hb : block? code
    case none => rfl
    case some block =>
      rw [hb] at h
      exact absurd h.left (hn block)

theorem block?_eq_some_iff : block? code = some block ↔
    Opens code block ∧ ∀ other, Opens code other → block.start ≤ other.start := by
  have h := firstFrom_block? code
  constructor
  case mp =>
    intro hb
    rw [hb] at h
    have ⟨ho, _, hleast⟩ := h
    exact ⟨ho, fun other ho' => hleast other ho' (Nat.zero_le _)⟩
  case mpr =>
    intro ⟨ho, hleast⟩
    cases hb : block? code
    case none =>
      rw [hb] at h
      exact absurd (h block ho) (Nat.not_lt_zero _)
    case some found =>
      rw [hb] at h
      have ⟨ho', _, hleast'⟩ := h
      have hs := Nat.le_antisymm (hleast' block ho (Nat.zero_le _)) (hleast found ho')
      rw [ho'.eq_of_start ho hs]

theorem Opens.bounds (h : Opens code block) (hc : code.IsUtf8) :
    block.start < block.stop ∧ code.isBoundary block.start = true ∧
      code.isBoundary block.stop = true := by
  have ⟨white, _, ⟨behind, hd⟩, hs⟩ := h
  have hl : (opening white).length = (keyword ++ Text.WhiteSpace.spelled white).length + 1 :=
    List.length_append
  refine ⟨by omega, (hc.isBoundary_of_ascii (x := 'e'.toUInt8) ?_ (by decide)).left, ?_⟩
  · rw [← List.head?_drop, ← hd]
    rfl
  · rw [hs, hl, ← Nat.add_assoc]
    refine (hc.isBoundary_of_ascii (x := '{'.toUInt8) ?_ (by decide)).right
    rw [← List.head?_drop, ← List.drop_drop, ← hd, opening, List.append_assoc, List.drop_left]
    rfl

-- Two insertions are recorded last one first, so the order of the text is the other one.
theorem reverse_disciplined (naming : Naming) (table : Table) (hc : code.IsUtf8) :
    Edit.Disciplined code ((find code).edits naming table).reverse := by
  have insertion {offset : Nat} {new : Text} (h : code.isBoundary offset = true) :
      code.isRange (Edit.insertion offset new).start (Edit.insertion offset new).stop = true :=
    Text.isRange_iff.mpr ⟨Nat.le_refl _, h, h⟩
  unfold find
  split
  case h_1 block _ hb =>
    have ⟨hlt, hs, he⟩ := (block?_eq_some_iff.mp hb).left.bounds hc
    refine .cons (insertion hs) ?_ (.singleton (insertion he))
    simpa [Edit.insertion] using ⟨hlt, Nat.le_of_lt hlt⟩
  case h_2 offset _ hf =>
    exact .singleton (insertion (hc.isBoundary_find? hf rfl (by decide)))
  case h_3 => exact .singleton (insertion Text.isBoundary_zero)

theorem exists_perm_disciplined (naming : Naming) (table : Table) (hc : code.IsUtf8) :
    ∃ es, es.Perm ((find code).edits naming table) ∧ Edit.Disciplined code es :=
  ⟨_, List.reverse_perm _, reverse_disciplined naming table hc⟩

theorem isUtf8_of_mem_edits {placement : Placement} {e : Edit} (h : table.IsWhole)
    (hn : naming.IsWhole) (he : e ∈ placement.edits naming table) : e.text.IsUtf8 := by
  have hs := Text.isUtf8_ofString
  have hd := h.declarations hn
  have hp := h.specifiers hn
  have hst : (statements naming table).IsUtf8 := by
    have hb := (((hs " ").append hp).append (hs " ")).braced
    exact (((hd.append (hs "export")).append (hs " ")).append hb).append (hs ";\n")
  cases placement <;> simp only [edits, List.mem_cons, List.not_mem_nil, or_false] at he
  case extend =>
    rcases he with rfl | rfl
    · exact hp.append (hs ", ")
    · exact hd
  case append =>
    subst he
    exact (hs "\n").append hst
  case create =>
    subst he
    exact ((hs "<script>\n").append hst).append (hs "</script>\n")

-- Around every keyword the code can be cut where the search for a block does so: in front of it,
-- behind it, and behind the white space that follows it.
def Cuts (code : Text) : Prop :=
  ∀ pos rest, Text.after? keyword (code.drop pos) = some rest →
    code.isBoundary pos = true ∧ code.isBoundary (pos + keyword.length) = true ∧
      code.isBoundary (pos + keyword.length + Text.WhiteSpace.leading rest) = true

theorem cuts (hc : code.IsUtf8) : Cuts code := by
  intro pos rest h
  have hd := Text.eq_of_after? h
  have hp : code[pos]? = some 'e'.toUInt8 := by rw [← List.head?_drop, hd]; rfl
  have ⟨hb, _⟩ := hc.isBoundary_of_ascii hp (by decide)
  have hu := (hc.cut hb).right.after? (Text.ascii_of_all rfl) h
  have hk : code.isBoundary (pos + keyword.length) = true := by
    refine hc.isBoundary_add hb ?_
    rw [hd]
    exact Text.isBoundary_append hu
  have hr : code.drop (pos + keyword.length) = rest := by rw [← List.drop_drop, hd, List.drop_left]
  refine ⟨hb, hk, hc.isBoundary_add hk ?_⟩
  rw [hr]
  exact Text.WhiteSpace.isBoundary_leading hu

end Placement

theorem Table.exists_inject {table : Table} (h : table.IsWhole) (hn : naming.IsWhole)
    (hc : code.IsUtf8) : ∃ out, table.inject naming code = .ok out ∧ out.IsUtf8 := by
  unfold inject placement?
  split
  case h_2 => exact ⟨code, rfl, hc⟩
  case h_1 placement hp =>
    obtain ⟨_, rfl⟩ : _ ∧ Placement.find code = placement := by simpa using hp
    have ⟨es, hes, hd⟩ := Placement.exists_perm_disciplined naming table hc
    have hw : ∀ e ∈ es, e.text.IsUtf8 := fun e he =>
      Placement.isUtf8_of_mem_edits h hn (hes.mem_iff.mp he)
    exact ⟨_, hd.applyAll_perm hes.symm hc hw, hd.isUtf8_spliceFrom hc hw⟩

end Export

end PugShorthand
