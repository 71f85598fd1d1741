import EcmaPress.Binding.Renaming
import EcmaPress.Proofs.Contact

/-!
# New names

Every new name is a short name that is not reserved. A short name is a word of letters and digits,
so it is read as a name, and as an identifier unless it is a keyword.
-/

namespace EcmaPress

/-! ### Short names -/

theorem nameChar_isIdPart {digit : Nat} (h : digit < 62) :
    isIdPart (nameChar digit) = true ∧ nameChar digit ≠ '\\' ∧ nameChar digit ≠ '\r' :=
  (by decide +kernel : ∀ digit < 62, isIdPart (nameChar digit) = true ∧ nameChar digit ≠ '\\' ∧
    nameChar digit ≠ '\r') digit h

theorem nameChar_isIdStart {digit : Nat} (h : digit < 52) :
    isIdStart (nameChar digit) = true ∧
      (isLineTerminator (nameChar digit) || isBlank (nameChar digit)) = false ∧
      nameChar digit ≠ '/' :=
  (by decide +kernel : ∀ digit < 52, isIdStart (nameChar digit) = true ∧
    (isLineTerminator (nameChar digit) || isBlank (nameChar digit)) = false ∧
    nameChar digit ≠ '/') digit h

/-- A short name begins with a letter, and all its characters are letters or digits. -/
theorem shortNameChars_eq (index : Nat) : ∃ first more, shortNameChars index = nameChar first :: more ∧
    first < 52 ∧ ∀ c ∈ shortNameChars index, ∃ digit < 62, c = nameChar digit := by
  induction index using shortNameChars.induct with
  | case1 index h =>
    rw [shortNameChars, if_pos h]
    refine ⟨index, [], rfl, h, fun c hc => ⟨index, by omega, by simpa using hc⟩⟩
  | case2 index h ih =>
    obtain ⟨first, more, hcons, hfirst, hall⟩ := ih
    rw [shortNameChars, if_neg h]
    refine ⟨first, more ++ [nameChar ((index - 52) % 62)], by rw [hcons]; rfl, hfirst, fun c hc => ?_⟩
    rcases List.mem_append.mp hc with hc | hc
    · exact hall c hc
    · exact ⟨(index - 52) % 62, by omega, by simpa using hc⟩

theorem nameChar_toNat {digit : Nat} (h : digit < 62) : (nameChar digit).toNat =
    if digit < 26 then 97 + digit else if digit < 52 then 39 + digit else digit - 4 :=
  (by decide +kernel : ∀ digit < 62, (nameChar digit).toNat =
    if digit < 26 then 97 + digit else if digit < 52 then 39 + digit else digit - 4) digit h

theorem nameChar_injective {a b : Nat} (ha : a < 62) (hb : b < 62)
    (h : nameChar a = nameChar b) : a = b := by
  have hnat := congrArg Char.toNat h
  rw [nameChar_toNat ha, nameChar_toNat hb] at hnat
  grind

/-- No short name comes twice. -/
theorem shortNameChars_injective {a b : Nat} (h : shortNameChars a = shortNameChars b) : a = b := by
  induction a using shortNameChars.induct generalizing b with
  | case1 a ha =>
    rw [shortNameChars, if_pos ha, shortNameChars] at h
    split at h
    · next hb => exact nameChar_injective (by omega) (by omega) (List.singleton_inj.mp h)
    · obtain ⟨first, more, hcons, -⟩ := shortNameChars_eq ((b - 52) / 62)
      rw [hcons] at h
      simp at h
  | case2 a ha ih =>
    rw [shortNameChars, if_neg ha] at h
    obtain ⟨first, more, hcons, -⟩ := shortNameChars_eq ((a - 52) / 62)
    by_cases hb : b < 52
    · rw [shortNameChars.eq_def b, if_pos hb, hcons] at h
      simp at h
    · rw [shortNameChars.eq_def b, if_neg hb] at h
      obtain ⟨hfront, hlast⟩ := List.append_inj' h rfl
      have hquotient := ih hfront
      have hremainder := nameChar_injective (by omega) (by omega) (List.singleton_inj.mp hlast)
      omega

theorem shortName_injective {a b : Nat} (h : shortName a = shortName b) : a = b :=
  shortNameChars_injective (String.ofList_injective h)

/-- Letters and digits are read as one name. -/
theorem Lexeme.name_all {text : List Char} (h : ∀ c ∈ text, isIdPart c = true ∧ c ≠ '\\') :
    name text = .ok text.length := by
  induction text with
  | nil => rfl
  | cons c text ih =>
    obtain ⟨⟨hpart, hescape⟩, htail⟩ := List.forall_mem_cons.mp h
    rw [name_cons hescape, if_pos hpart, ih htail]
    rfl

/-- A short name can be read back. -/
theorem readable_shortName (index : Nat) :
    (⟨.name, shortName index, .start, false⟩ : Token).Readable := by
  obtain ⟨first, more, hcons, hfirst, hall⟩ := shortNameChars_eq index
  have htext : (shortName index).toList = shortNameChars index := String.toList_ofList
  obtain ⟨hstart, hblank, hslash⟩ := nameChar_isIdStart hfirst
  refine ⟨⟨?_, List.prefix_rfl, .inl ?_⟩, rfl, nofun⟩
  · rw [htext, hcons, Lexeme.gap_eq_zero]
    exact ⟨hblank, fun h => absurd h hslash⟩
  · have hname : Lexeme.name (shortNameChars index) = .ok (shortNameChars index).length :=
      Lexeme.name_all fun c hc => by
        obtain ⟨digit, hdigit, rfl⟩ := hall c hc
        exact ⟨(nameChar_isIdPart hdigit).1, (nameChar_isIdPart hdigit).2.1⟩
    rw [hcons] at hname
    rw [← String.length_toList, htext, hcons]
    simp only [Lexeme.scan, hstart, Bool.true_or, if_true, hname]

/-! ### The names that are given -/

theorem mem_freshNames {taken : List String} {count : Nat} {new : String}
    (h : new ∈ freshNames taken count) : new ∉ taken ∧ ∃ index, new = shortName index := by
  have hmem := List.mem_of_mem_take h
  rw [List.mem_filter, List.mem_map] at hmem
  obtain ⟨⟨index, -, rfl⟩, hfree⟩ := hmem
  exact ⟨by simpa using hfree, index, rfl⟩

/-- Where the first short names are taken, the next one is free. -/
theorem freshNames_range (n count : Nat) : freshNames ((List.range n).map shortName) count =
    (List.range' n count).map shortName := by
  have htaken : ∀ index, ((List.range n).map shortName).contains (shortName index) = true ↔
      index < n := by
    intro index
    rw [List.contains_iff_mem, List.mem_map]
    constructor
    · rintro ⟨other, hmem, hother⟩
      exact shortName_injective hother ▸ List.mem_range.mp hmem
    · exact fun h => ⟨index, List.mem_range.mpr h, rfl⟩
  have hsplit : List.range (count + n) = List.range' 0 n ++ List.range' n count := by
    rw [List.range_eq_range', Nat.add_comm, ← List.range'_append_1, Nat.zero_add]
  have hpassed : (List.range' 0 n).filter
      (fun index => !((List.range n).map shortName).contains (shortName index)) = [] := by
    refine List.filter_eq_nil_iff.mpr fun index hindex => ?_
    rw [(htaken index).mpr (by simpa using List.mem_range'_1.mp hindex)]
    exact Bool.false_ne_true
  have hkept : (List.range' n count).filter
      (fun index => !((List.range n).map shortName).contains (shortName index)) =
        List.range' n count := by
    refine List.filter_eq_self.mpr fun index hindex => ?_
    rw [Bool.not_eq_true', ← Bool.not_eq_true, htaken]
    exact Nat.not_lt.mpr (List.mem_range'_1.mp hindex).1
  rw [freshNames, List.length_map, List.length_range, List.filter_map, hsplit, List.filter_append]
  simp only [Function.comp_def, hpassed, hkept, List.nil_append]
  rw [List.take_of_length_le (by simp)]

theorem nodup_shortNames (n : Nat) : ((List.range n).map shortName).Nodup :=
  List.pairwise_map.mpr (List.nodup_range.imp fun hne h => hne (shortName_injective h))

/-- The first short names, none of which is dropped as a duplicate. -/
theorem eraseDups_shortNames (n : Nat) :
    ((List.range n).map shortName).eraseDups = (List.range n).map shortName := by
  have hnodup := nodup_shortNames n
  generalize (List.range n).map shortName = names at hnodup
  induction names with
  | nil => rfl
  | cons name names ih =>
    obtain ⟨hnot, hnames⟩ := List.nodup_cons.mp hnodup
    have hkeep : names.filter (fun other => !other == name) = names :=
      List.filter_eq_self.mpr fun other hother => by
        rw [Bool.not_eq_true', beq_eq_false_iff_ne]
        rintro rfl
        exact hnot hother
    rw [List.eraseDups_cons, hkeep, ih hnames]

/-- A name that may be given where the names of a list are reserved. -/
def IsNew (reserved : List String) (new : String) : Prop :=
  new ∉ reserved ∧ ∃ index, new = shortName index

namespace Scoping

variable {reserved : List String}

theorem table_new {resolved : List (Occurrence × Option Nat)} {tables : Array NameTable}
    {scope : Scope} {entry : String × String} (h : entry ∈ table resolved reserved tables scope) :
    IsNew reserved entry.2 := by
  unfold table at h
  split at h
  · cases h
  · obtain ⟨hnot, hshort⟩ := mem_freshNames (List.of_mem_zip h).2
    refine ⟨fun hmem => hnot ?_, hshort⟩
    rw [List.mem_eraseDups]
    exact List.mem_append_left _ hmem

theorem tables_new (s : Scoping) {table : NameTable} (h : table ∈ s.tables reserved)
    {entry : String × String} (hentry : entry ∈ table) : IsNew reserved entry.2 := by
  have hfold : ∀ (scopes : List Scope) (tables : Array NameTable),
      (∀ table ∈ tables, ∀ entry ∈ table, IsNew reserved entry.2) →
      ∀ table ∈ scopes.foldl (fun tables scope =>
        tables.push (Scoping.table s.resolved reserved tables scope)) tables,
        ∀ entry ∈ table, IsNew reserved entry.2 := by
    intro scopes
    induction scopes with
    | nil => exact fun tables htables => htables
    | cons scope scopes ih =>
      intro tables htables
      refine ih _ fun table htable entry hentry => ?_
      rcases Array.mem_push.mp htable with htable | rfl
      · exact htables table htable entry hentry
      · exact table_new hentry
  rw [tables, ← Array.foldl_toList] at h
  exact hfold _ #[] (fun table htable => nomatch htable) table h entry hentry

theorem newName_new {s : Scoping} {scope : Option Nat} {name : String}
    (h : newName (s.tables reserved) scope name ≠ name) :
    IsNew reserved (newName (s.tables reserved) scope name) := by
  cases scope with
  | none => exact absurd rfl h
  | some scope =>
    simp only [newName] at h ⊢
    cases htable : (s.tables reserved)[scope]? with
    | none => exact absurd (by rw [htable]; rfl) h
    | some table =>
      simp only [htable, Option.getD_some] at h ⊢
      cases hlookup : table.lookup name with
      | none => exact absurd (by rw [hlookup]; rfl) h
      | some new =>
        obtain ⟨front, back, hsplit, -⟩ := List.lookup_eq_some_iff.mp hlookup
        have hentry : (name, new) ∈ table := by simp [hsplit]
        exact s.tables_new (Array.mem_of_getElem? htable) hentry

/-- Whatever name is given may be given. -/
theorem renames_new {s : Scoping} {offset : Nat} {new : String}
    (h : (s.renames reserved)[offset]? = some new) : IsNew reserved new := by
  have hfold : ∀ (resolved : List (Occurrence × Option Nat)) (renames : Renames),
      (∀ (offset : Nat) new, renames[offset]? = some new → IsNew reserved new) →
      ∀ (offset : Nat) new, (resolved.foldl (fun renames entry =>
        let new := newName (s.tables reserved) entry.2 entry.1.id.name
        if new == entry.1.id.name then renames else renames.insert entry.1.id.pos.offset new)
        renames)[offset]? = some new → IsNew reserved new := by
    intro resolved
    induction resolved with
    | nil => exact fun renames hrenames => hrenames
    | cons occurrence resolved ih =>
      intro renames hrenames
      refine ih _ fun offset new hnew => ?_
      dsimp only at hnew
      split at hnew
      · exact hrenames offset new hnew
      · next hne =>
        rw [Std.TreeMap.getElem?_insert] at hnew
        split at hnew
        · obtain rfl := Option.some.inj hnew
          exact newName_new (by simpa using hne)
        · exact hrenames offset new hnew
  exact hfold s.resolved ∅ (fun offset new hnew => by simp at hnew) offset new h

end Scoping

/-- Where a name is printed, it is the old one, or a new one that the style allows. -/
theorem Program.text_name {program : Program} {style : Style} {id : Identifier} {s : String}
    (h : (Piece.name id).text (.ofStyle style (program.renames style)) = some s) :
    s = id.name ∨ ∃ reserved, style.reserved = some reserved ∧ IsNew reserved s := by
  have hs : (program.renames style)[id.pos.offset]?.getD id.name = s := Option.some.inj h
  cases hnew : (program.renames style)[id.pos.offset]? with
  | none =>
    rw [hnew] at hs
    exact .inl hs.symm
  | some new =>
    rw [hnew] at hs
    obtain rfl : new = s := hs
    unfold renames at hnew
    split at hnew
    · simp at hnew
    · next reserved hreserved => exact .inr ⟨reserved, hreserved, Scoping.renames_new hnew⟩

namespace Piece

variable {program : Program} {style : Style} {ps : List Piece}

/-- Whatever is printed looks like its piece, be the new names keywords or not. -/
theorem Lexical.ofStyle (h : Legible ⟨Identifier.name, style.dropSemicolons⟩ ps) :
    Lexical (.ofStyle style (program.renames style)) ps := by
  intro p hp s hs
  cases p with
  | name id =>
    rcases Program.text_name hs with rfl | ⟨reserved, -, -, index, rfl⟩
    · exact h.lexical _ hp _ rfl
    · exact ⟨_, readable_shortName index, rfl, by simp [Piece.shape], fun _ _ => rfl⟩
  | _ => exact h.lexical _ hp s hs

/-- So it can be read as a token. -/
theorem readable_text (h : Legible ⟨Identifier.name, style.dropSemicolons⟩ ps) :
    ∀ p ∈ ps, ∀ s, p.text (.ofStyle style (program.renames style)) = some s →
      ∃ t : Token, t.Readable ∧ t.text = s := by
  intro p hp s hs
  obtain ⟨t, hread, htext, -⟩ := Lexical.ofStyle h p hp s hs
  exact ⟨t, hread, htext⟩

/-- If keywords are reserved, new names can be read back as identifiers, and so can all that is
printed as what it is. -/
theorem Legible.ofStyle (h : Legible ⟨Identifier.name, style.dropSemicolons⟩ ps)
    (hkeywords : ∀ reserved, style.reserved = some reserved → ∀ word ∈ keywords, word ∈ reserved) :
    Legible (.ofStyle style (program.renames style)) ps := by
  intro p hp s hs
  cases p with
  | name id =>
    rcases Program.text_name hs with rfl | ⟨reserved, hstyle, hfree, index, rfl⟩
    · exact h _ hp _ rfl
    · refine ⟨_, readable_shortName index, rfl, Token.isIdentifier_iff.mpr ⟨rfl, ?_⟩⟩
      rw [isReserved, ← Bool.not_eq_true, List.contains_iff_mem]
      exact fun hkeyword => hfree (hkeywords reserved hstyle _ hkeyword)
  | _ => exact h _ hp s hs

end Piece
end EcmaPress
