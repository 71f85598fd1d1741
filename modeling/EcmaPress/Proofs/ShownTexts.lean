import EcmaPress.Proofs.FaultPositions

/-!
# Bytes that are shown

Bytes that need not be UTF-8 fall into characters and faults, and a fault is shown as a replacement
character. Bytes are UTF-8 just if what is shown of them is written as they are. An ASCII byte is a
character of its own wherever it stands, so bytes may be shown part by part.
-/

namespace EcmaPress
namespace Utf8

/-! ### Pieces -/

/-- The bytes of a piece. -/
def Piece.bytes : Piece → List UInt8
  | .char c => String.utf8EncodeChar c
  | .fault bytes => bytes

/-- Bytes are those of their pieces. -/
theorem flatMap_pieces (bytes : List UInt8) : (pieces bytes).flatMap Piece.bytes = bytes := by
  fun_induction pieces bytes with
  | case1 => rfl
  | case2 lead rest c more hread ih =>
    obtain ⟨trail, back, rfl, rfl, hc⟩ := read_eq_char.mp hread
    rw [List.flatMap_cons, ih, Piece.bytes, hc, List.drop_left]
    rfl
  | case3 lead rest reason more hread ih =>
    rw [List.flatMap_cons, ih, Piece.bytes, List.cons_append, List.take_append_drop]

/-- The pieces of a text that is written are its characters. -/
theorem pieces_ofString (text : String) : pieces (ofString text) = text.toList.map .char := by
  unfold ofString
  induction text.toList with
  | nil => rw [List.flatMap_nil, pieces, List.map_nil]
  | cons c text ih =>
    obtain ⟨lead, trail, hc⟩ := exists_cons_of_isSequence (isSequence_iff.mpr ⟨c, rfl⟩)
    have hread : read lead (trail ++ text.flatMap String.utf8EncodeChar) = .char c trail.length :=
      read_eq_char.mpr ⟨trail, _, rfl, rfl, hc⟩
    rw [List.flatMap_cons, hc, List.cons_append, pieces, hread]
    dsimp only
    rw [List.drop_left, ih, List.map_cons]

variable {bytes : List UInt8}

/-- Pieces make a text if they are its characters. -/
theorem mapM_char? {pieces : List Piece} {chars : List Char} :
    pieces.mapM Piece.char? = some chars ↔ pieces = chars.map .char := by
  induction pieces generalizing chars with
  | nil =>
    rw [List.mapM_nil, eq_comm (a := []), List.map_eq_nil_iff]
    exact ⟨fun h => (Option.some.inj h).symm, fun h => congrArg some h.symm⟩
  | cons piece pieces ih =>
    cases piece with
    | char c =>
      simp only [List.mapM_cons, Piece.char?, Option.bind_eq_bind, Option.bind_some,
        Option.pure_def, Option.bind_eq_some_iff, ih]
      cases chars with
      | nil => simp
      | cons => simp [and_comm]
    | fault => cases chars <;> simp [List.mapM_cons, Piece.char?]

/-- Bytes have a text just if it is written as these bytes. -/
theorem text?_eq_some {text : String} : text? bytes = some text ↔ ofString text = bytes := by
  constructor
  · intro h
    obtain ⟨chars, hchars, rfl⟩ := Option.map_eq_some_iff.mp h
    rw [← flatMap_pieces bytes, mapM_char?.mp hchars, ofString, String.toList_ofList,
      List.flatMap_map]
    rfl
  · rintro rfl
    rw [text?, pieces_ofString, mapM_char?.mpr rfl, Option.map_some, String.ofList_toList]

theorem lossy_ofString (text : String) : lossy (ofString text) = text := by
  have hshown : Piece.shown ∘ Piece.char = id := rfl
  rw [lossy, pieces_ofString, List.map_map, hshown, List.map_id, String.ofList_toList]

/-! ### Bytes restored from what is shown -/

/-- What is shown of some bytes, written again. -/
def restore (bytes : List UInt8) : List UInt8 :=
  ofString (lossy bytes)

/-- Bytes are restored just if they are UTF-8. -/
theorem restore_eq_self : restore bytes = bytes ↔ (text? bytes).isSome := by
  rw [Option.isSome_iff_exists]
  constructor
  · exact fun h => ⟨_, text?_eq_some.mpr h⟩
  · rintro ⟨text, htext⟩
    rw [← text?_eq_some.mp htext, restore, lossy_ofString]

theorem restore_eq_flatMap (bytes : List UInt8) :
    restore bytes = (pieces bytes).flatMap fun piece => String.utf8EncodeChar piece.shown := by
  rw [restore, lossy, ofString, String.toList_ofList, List.flatMap_map]

/-- A fault is restored as bytes beyond ASCII, and a character as it is. -/
theorem mem_restore {byte : UInt8} (h : byte ∈ restore bytes) : byte ∈ bytes ∨ 0x80 ≤ byte := by
  rw [restore_eq_flatMap] at h
  obtain ⟨piece, hpiece, hbyte⟩ := List.mem_flatMap.mp h
  cases piece with
  | char c =>
    rw [← flatMap_pieces bytes]
    exact .inl (List.mem_flatMap.mpr ⟨_, hpiece, hbyte⟩)
  | fault =>
    have hall : ∀ byte ∈ String.utf8EncodeChar '\uFFFD', 0x80 ≤ byte := by decide +kernel
    exact .inr (hall byte hbyte)

/-- Bytes that are restored as ASCII have no fault. -/
theorem restore_eq_of_ascii (h : ∀ byte ∈ restore bytes, byte < 0x80) : restore bytes = bytes := by
  have hchar : ∀ piece ∈ pieces bytes, String.utf8EncodeChar piece.shown = piece.bytes := by
    intro piece hpiece
    cases piece with
    | char c => rfl
    | fault =>
      rw [restore_eq_flatMap] at h
      have hlead : 0xEF ∈ String.utf8EncodeChar '\uFFFD' := by decide
      exact absurd (h 0xEF (List.mem_flatMap.mpr ⟨_, hpiece, hlead⟩)) (by decide)
  have hpieces := flatMap_pieces bytes
  rwa [← List.flatMap_congr hchar, ← restore_eq_flatMap] at hpieces

/-! ### Parts -/

theorem followers_high {lead : UInt8} {ranges : List (UInt8 × UInt8)}
    (h : followers lead = some ranges) : ∀ range ∈ ranges, 0x80 ≤ range.1 := by
  unfold followers at h
  repeat' split at h
  all_goals cases h
  all_goals simp

/-- No byte in a range is ASCII, so nothing lies in the ranges from one on. -/
theorem matching_append_cons {ranges : List (UInt8 × UInt8)} (h : ∀ range ∈ ranges, 0x80 ≤ range.1)
    {byte : UInt8} (hbyte : byte < 0x80) (front back : List UInt8) :
    matching ranges (front ++ byte :: back) = matching ranges front := by
  induction ranges generalizing front with
  | nil => simp [matching]
  | cons range ranges ih =>
    obtain ⟨hrange, hranges⟩ := List.forall_mem_cons.mp h
    cases front with
    | nil =>
      have hout : ¬ (range.1 ≤ byte ∧ byte ≤ range.2) := fun hin =>
        absurd hbyte (UInt8.not_lt.mpr (UInt8.le_trans hrange hin.1))
      rw [List.nil_append, matching, if_neg hout]
      simp [matching]
    | cons first front =>
      rw [List.cons_append, matching, matching, ih hranges]

theorem matching_le (ranges : List (UInt8 × UInt8)) (rest : List UInt8) :
    matching ranges rest ≤ rest.length := by
  fun_induction matching ranges rest with
  | case1 low high ranges byte bytes hrange ih => exact Nat.succ_le_succ ih
  | case2 | case3 => exact Nat.zero_le _

/-- A fault covers the same bytes if an ASCII byte stands behind what has been read. -/
theorem read_eq_fault {lead : UInt8} {rest : List UInt8} {reason : CodingFault} {more : Nat}
    (h : read lead rest = .fault reason more) {byte : UInt8} (hbyte : byte < 0x80)
    (back : List UInt8) :
    more ≤ rest.length ∧ ∃ reason', read lead (rest ++ byte :: back) = .fault reason' more := by
  unfold read at h ⊢
  cases hfollowers : followers lead with
  | none =>
    rw [hfollowers] at h
    obtain ⟨-, rfl⟩ := Reading.fault.inj h
    exact ⟨Nat.zero_le _, _, rfl⟩
  | some ranges =>
    simp only [hfollowers] at h ⊢
    rw [matching_append_cons (followers_high hfollowers) hbyte]
    have hle := matching_le ranges rest
    split at h
    · cases h
    · next hshort =>
      have hmore : matching ranges rest = more := by
        split at h <;> exact (Reading.fault.inj h).2
      rw [if_neg hshort, ← hmore]
      refine ⟨hle, ?_⟩
      split <;> exact ⟨_, rfl⟩

/-- An ASCII byte is a piece of its own. -/
theorem pieces_append_cons {byte : UInt8} {c : Char} (hc : String.utf8EncodeChar c = [byte])
    (hbyte : byte < 0x80) (front back : List UInt8) :
    pieces (front ++ byte :: back) = pieces front ++ .char c :: pieces back := by
  fun_induction pieces front with
  | case1 =>
    have hread : read byte back = .char c 0 := read_eq_char.mpr ⟨[], back, rfl, rfl, hc⟩
    rw [List.nil_append, pieces, hread]
    rfl
  | case2 lead rest d more hread ih =>
    obtain ⟨trail, behind, rfl, rfl, hd⟩ := read_eq_char.mp hread
    have hreads : read lead (trail ++ behind ++ byte :: back) = .char d trail.length :=
      read_eq_char.mpr ⟨trail, _, List.append_assoc .., rfl, hd⟩
    rw [List.drop_left] at ih
    rw [List.cons_append, pieces, hreads]
    dsimp only
    rw [List.append_assoc, List.drop_left, ih, List.drop_left]
    rfl
  | case3 lead rest reason more hread ih =>
    obtain ⟨hmore, reason', hreads⟩ := read_eq_fault hread hbyte back
    rw [List.cons_append, pieces, hreads]
    dsimp only
    rw [List.drop_append_of_le_length hmore, ih, List.take_append_of_le_length hmore]
    rfl

/-- Of parts with slashes between them the parts are shown, with slashes between them. -/
theorem lossy_intercalate (parts : List (List UInt8)) :
    lossy ([0x2F].intercalate parts) = "/".intercalate (parts.map lossy) := by
  have hslash : ∀ front back : List UInt8,
      lossy (front ++ 0x2F :: back) = lossy front ++ "/" ++ lossy back := by
    intro front back
    have hc : String.utf8EncodeChar '/' = [0x2F] := by decide
    rw [lossy, pieces_append_cons hc (by decide), List.map_append, List.map_cons, String.ofList_append,
      String.ofList_cons, ← String.append_assoc]
    rfl
  induction parts with
  | nil =>
    rw [List.intercalate_nil, lossy, pieces]
    rfl
  | cons part parts ih =>
    by_cases hnil : parts = []
    · simp [hnil]
    · have hmap : parts.map lossy ≠ [] := by simpa using hnil
      rw [List.map_cons, List.intercalate_cons_of_ne_nil hnil, String.intercalate_cons_of_ne_nil hmap,
        List.append_assoc, List.singleton_append, hslash, ih]

/-- Texts with slashes between them are written with slashes between them. -/
theorem ofString_intercalate (texts : List String) :
    ofString ("/".intercalate texts) = [0x2F].intercalate (texts.map ofString) := by
  have happend : ∀ front back : String,
      ofString (front ++ back) = ofString front ++ ofString back := by
    intro front back
    rw [ofString, String.toList_append, List.flatMap_append]
    rfl
  induction texts with
  | nil => rfl
  | cons text texts ih =>
    by_cases hnil : texts = []
    · simp [hnil]
    · have hmap : texts.map ofString ≠ [] := by simpa using hnil
      rw [List.map_cons, List.intercalate_cons_of_ne_nil hmap, String.intercalate_cons_of_ne_nil hnil,
        happend, happend, ih]
      rfl

/-- Parts with slashes between them are restored one by one. -/
theorem restore_intercalate (parts : List (List UInt8)) :
    restore ([0x2F].intercalate parts) = [0x2F].intercalate (parts.map restore) := by
  rw [restore, lossy_intercalate, ofString_intercalate, List.map_map]
  rfl

end Utf8
end EcmaPress
