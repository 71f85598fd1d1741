import EcmaPress.Mapping.Reading
import Mathlib.Algebra.Group.Nat.Defs
import Mathlib.Data.List.Basic
import Mathlib.Data.List.Induction

/-!
# Mappings read back

Whatever entries are written as mappings, a reader finds the same entries again, as long as the
generated lines do not go back. The step of the argument is a single segment: written relative to
the state before it, it is read relative to a reader that agrees with this state. Between two
segments stand semicolons, a comma or nothing, and what follows a segment begins with one of these
or is at an end.
-/

namespace EcmaPress

/-! ### Numbers -/

theorem Base64.digit?_digit : ∀ n < 64, digit? (digit n) = some n := by
  decide

/-- No digit parts segments or lines. -/
theorem Base64.digit_ne : ∀ n < 64, digit n ≠ ',' ∧ digit n ≠ ';' := by
  decide

namespace Vlq

/-- A whole number of any size as a natural one whose lowest bit is the sign. -/
def folded (value : Int) : Nat :=
  if value < 0 then 2 * value.natAbs + 1 else 2 * value.natAbs

/-- The digits of a natural number of any size. -/
def digits (n : Nat) : List Nat :=
  if n < 32 then [n] else (n % 32 + 32) :: digits (n / 32)
termination_by n
decreasing_by omega

/-- The characters of a whole number of any size. -/
def text (value : Int) : List Char :=
  (digits (folded value)).map Base64.digit

/-! #### In 64 bits -/

theorem ofNat_and (k : Nat) : Int64.ofNat k &&& 31 = Int64.ofNat (k % 32) := by
  rw [← Int64.toBitVec_inj, Int64.toBitVec_and]
  apply BitVec.eq_of_toNat_eq
  have hmask : (31 : Int64).toBitVec.toNat = 2 ^ 5 - 1 := rfl
  rw [BitVec.toNat_and, hmask, Nat.and_two_pow_sub_one_eq_mod]
  simp
  omega

theorem ofNat_or {k : Nat} (h : k < 32) : Int64.ofNat k ||| 32 = Int64.ofNat (k + 32) := by
  rw [← Int64.toBitVec_inj, Int64.toBitVec_or]
  apply BitVec.eq_of_toNat_eq
  have hlow : (Int64.ofNat k).toBitVec.toNat = k := by simp; omega
  have hbit : (32 : Int64).toBitVec.toNat = 2 ^ 5 * 1 := rfl
  rw [BitVec.toNat_or, hlow, hbit, Nat.or_comm, ← Nat.two_pow_add_eq_or_of_lt h]
  simp
  omega

theorem ofNat_shiftRight {k : Nat} (h : k < 2 ^ 63) :
    Int64.ofNat k >>> 5 = Int64.ofNat (k / 32) := by
  rw [← Int64.toInt_inj, toInt_shiftRight, Int64.toInt_ofNat_of_lt h,
    Int64.toInt_ofNat_of_lt (by omega)]
  rfl

theorem ofNat_shiftLeft (k : Nat) : Int64.ofNat k <<< 1 = Int64.ofNat (2 * k) := by
  rw [← Int64.toBitVec_inj, Int64.toBitVec_shiftLeft]
  apply BitVec.eq_of_toNat_eq
  change ((Int64.ofNat k).toBitVec <<< 1).toNat = _
  rw [BitVec.toNat_shiftLeft]
  simp
  omega

theorem ofNat_or_one {k : Nat} (h : k < 2 ^ 63) :
    Int64.ofNat (2 * k) ||| 1 = Int64.ofNat (2 * k + 1) := by
  rw [← Int64.toBitVec_inj, Int64.toBitVec_or]
  apply BitVec.eq_of_toNat_eq
  have heven : (Int64.ofNat (2 * k)).toBitVec.toNat = 2 ^ 1 * k := by simp; omega
  have hbit : (1 : Int64).toBitVec.toNat = 1 := rfl
  rw [BitVec.toNat_or, heven, hbit, ← Nat.two_pow_add_eq_or_of_lt (by decide)]
  simp
  omega

theorem toNat_ofNat {k : Nat} (h : k < 2 ^ 63) : (Int64.ofNat k).toInt.toNat = k := by
  rw [Int64.toInt_ofNat_of_lt h, Int.toNat_natCast]

theorem ofNat_pos {k : Nat} (h : k < 2 ^ 63) (hpos : 0 < k) : (0 : Int64) < Int64.ofNat k := by
  rw [Int64.lt_iff_toInt_lt, Int64.toInt_zero, Int64.toInt_ofNat_of_lt h]
  omega

/-- No bit is lost from a number that leaves two bits free. -/
theorem fold_ofInt {value : Int} (h : value.natAbs < 2 ^ 62) :
    fold (Int64.ofInt value) = Int64.ofNat (folded value) := by
  have hint : (Int64.ofInt value).toInt = value := Int64.toInt_ofInt_of_le (by omega) (by omega)
  have hneg : Int64.ofInt value < 0 ↔ value < 0 := by
    rw [Int64.lt_iff_toInt_lt, hint, Int64.toInt_zero]
  simp only [fold, folded, hneg]
  split
  · have habs : -Int64.ofInt value = Int64.ofNat value.natAbs := by
      rw [← Int64.toInt_inj, Int64.toInt_neg, hint, Int64.toInt_ofNat_of_lt (by omega),
        Int.bmod_eq_of_le (by omega) (by omega)]
      omega
    rw [habs, ofNat_shiftLeft, ofNat_or_one (by omega)]
  · have habs : Int64.ofInt value = Int64.ofNat value.natAbs := by
      rw [← Int64.toInt_inj, hint, Int64.toInt_ofNat_of_lt (by omega)]
      omega
    rw [habs, ofNat_shiftLeft]

theorem digits?_ofNat {k : Nat} (h : k < 2 ^ 63) : digits? (Int64.ofNat k) = some (digits k) := by
  induction k using digits.induct with
  | case1 k hk =>
    have hrest : Int64.ofNat (k / 32) = 0 := by
      rw [Nat.div_eq_of_lt hk]
      rfl
    rw [digits?, digits, ofNat_shiftRight h, ofNat_and, if_pos hrest, if_pos hk,
      toNat_ofNat (by omega), Nat.mod_eq_of_lt hk]
  | case2 k hk ih =>
    have hpos : (0 : Int64) < Int64.ofNat (k / 32) := ofNat_pos (by omega) (by omega)
    have hne : Int64.ofNat (k / 32) ≠ 0 := by
      intro hzero
      rw [hzero] at hpos
      exact absurd hpos (by decide)
    rw [digits?, digits, ofNat_shiftRight h, ofNat_and, if_neg hne, dif_pos hpos, if_neg hk,
      ih (by omega), ofNat_or (by omega), toNat_ofNat (by omega)]
    rfl

/-- However often it is shifted, a negative number never comes to zero. -/
theorem digits?_of_neg {n : Int64} (h : n < 0) : n >>> 5 < 0 ∧ digits? n = none := by
  have hrest : n >>> 5 < 0 := by
    rw [Int64.lt_iff_toInt_lt, Int64.toInt_zero] at h ⊢
    rw [toInt_shiftRight]
    omega
  refine ⟨hrest, ?_⟩
  rw [digits?, if_neg, dif_neg]
  · rw [Int64.lt_iff_toInt_lt] at hrest ⊢
    omega
  · intro hzero
    rw [hzero] at hrest
    exact absurd hrest (by decide)

theorem encode?_ofInt {value : Int} (h : value.natAbs < 2 ^ 62) :
    encode? (Int64.ofInt value) = some (text value) := by
  have hfolded : folded value < 2 ^ 63 := by
    unfold folded
    split <;> omega
  rw [encode?, fold_ofInt h, digits?_ofNat hfolded]
  rfl

/-! #### Reading back -/

theorem digits_lt (n : Nat) : ∀ d ∈ digits n, d < 64 := by
  induction n using digits.induct with
  | case1 n h =>
    rw [digits, if_pos h]
    intro d hd
    obtain rfl := List.mem_singleton.mp hd
    omega
  | case2 n h ih =>
    rw [digits, if_neg h]
    intro d hd
    rcases List.mem_cons.mp hd with rfl | hd
    · omega
    · exact ih d hd

theorem natural?_digits (n : Nat) (rest : List Char) :
    natural? ((digits n).map Base64.digit ++ rest) = some (n, rest) := by
  induction n using digits.induct with
  | case1 n h =>
    have hdigit := Base64.digit?_digit n (by omega)
    simp [digits, h, natural?, hdigit]
  | case2 n h ih =>
    have hdigit := Base64.digit?_digit (n % 32 + 32) (by omega)
    have hmore : ¬ n % 32 + 32 < 32 := by omega
    have hvalue : n % 32 + 32 * (n / 32) = n := by omega
    rw [digits, if_neg h, List.map_cons, List.cons_append, natural?]
    simp [hdigit, hmore, ih, hvalue]

theorem unfolded_folded (value : Int) : unfolded (folded value) = value := by
  unfold unfolded folded
  split <;> split <;> omega

theorem text_ne_nil (value : Int) : text value ≠ [] := by
  rw [text, digits]
  split <;> simp

/-- A number is written without commas and semicolons. -/
theorem not_mem_text (value : Int) : ',' ∉ text value ∧ ';' ∉ text value := by
  have hdigits := digits_lt (folded value)
  constructor <;>
  · rintro hmem
    obtain ⟨d, hd, heq⟩ := List.mem_map.mp hmem
    obtain ⟨hcomma, hsemicolon⟩ := Base64.digit_ne d (hdigits d hd)
    contradiction

theorem integers?_text (value : Int) (rest : List Char) :
    integers? (text value ++ rest) = (integers? rest).map (value :: ·) := by
  have hread : natural? (text value ++ rest) = some (folded value, rest) := natural?_digits ..
  have hsome : (text value ++ rest).isEmpty = false := by simp [text_ne_nil]
  rw [integers?, if_neg (by rw [hsome]; decide)]
  split
  · next hnone =>
    rw [hread] at hnone
    cases hnone
  · next n rest' hsome =>
    rw [hread] at hsome
    obtain ⟨rfl, rfl⟩ := Prod.mk.inj (Option.some.inj hsome)
    rw [unfolded_folded]

theorem integers?_flatMap (values : List Int) :
    integers? (values.flatMap text) = some values := by
  induction values with
  | nil =>
    rw [List.flatMap_nil, integers?]
    rfl
  | cons value values ih => rw [List.flatMap_cons, integers?_text, ih, Option.map_some]

end Vlq

/-! ### Texts in parts -/

/-- A text without the separator stays at the front of the first part. -/
theorem splitOn_append {s : Char} {text : List Char} (h : s ∉ text) {rest first : List Char}
    {others : List (List Char)} (hrest : rest.splitOn s = first :: others) :
    (text ++ rest).splitOn s = (text ++ first) :: others := by
  induction text with
  | nil => exact hrest
  | cons c text ih =>
    rw [List.mem_cons, not_or] at h
    rw [List.cons_append, List.splitOn_cons_eq_if_modifyHead, ih h.2,
      if_neg (by simpa using Ne.symm h.1)]
    rfl

theorem splitOn_replicate {s : Char} (n : Nat) (rest : List Char) :
    (List.replicate n s ++ rest).splitOn s = List.replicate n [] ++ rest.splitOn s := by
  induction n with
  | zero => rfl
  | succ n ih =>
    rw [List.replicate_succ, List.cons_append, List.splitOn_cons_eq_if_modifyHead, ih,
      if_pos (beq_self_eq_true s)]
    rfl

/-! ### One segment -/

/-- A word of 64 bits holds a number that leaves two of them free. -/
def Holds (word : Int64) (n : Nat) : Prop :=
  word = .ofNat n ∧ n < 2 ^ 62

theorem holds_ofNat {n : Nat} (h : n < 2 ^ 62) : Holds (.ofNat n) n :=
  ⟨rfl, h⟩

theorem holds_toNat (n : UInt32) : Holds (.ofNat n.toNat) n.toNat :=
  holds_ofNat (Nat.lt_trans n.toNat_lt (by decide))

/-- The difference of two numbers is written as it is. -/
theorem Holds.encode?_sub {a b : Int64} {m n : Nat} (ha : Holds a m) (hb : Holds b n) :
    Vlq.encode? (a - b) = some (Vlq.text ((m : Int) - n)) := by
  obtain ⟨rfl, hm⟩ := ha
  obtain ⟨rfl, hn⟩ := hb
  have hsmall : ((m : Int) - n).natAbs < 2 ^ 62 := by omega
  rw [← Vlq.encode?_ofInt hsmall, Int64.ofInt_sub]
  rfl

namespace MappingReader

theorem moved?_delta (old new : Nat) : moved? old ((new : Int) - old) = some new := by
  have hsum : (old : Int) + ((new : Int) - old) = new := by omega
  rw [moved?, hsum]
  rfl

theorem place?_toNat (p : Place) : place? p.line.toNat p.column.toNat = some p := by
  rw [place?, if_pos ⟨p.line.toNat_lt, p.column.toNat_lt⟩, UInt32.ofNat_toNat, UInt32.ofNat_toNat]

/-- The reader behind an entry. -/
def behind (names : List String) (reader : MappingReader) (entry : Entry) : MappingReader where
  column := entry.segment.generated.column.toNat
  source := entry.source
  originLine := entry.segment.origin.line.toNat
  originColumn := entry.segment.origin.column.toNat
  name := match entry.segment.name with
    | none => reader.name
    | some name => names.idxOf name

/-- The numbers that stand for an entry. -/
def numbers (names : List String) (reader : MappingReader) (entry : Entry) : List Int :=
  let next := reader.behind names entry
  [(next.column : Int) - reader.column, (next.source : Int) - reader.source,
      (next.originLine : Int) - reader.originLine,
      (next.originColumn : Int) - reader.originColumn] ++
    if entry.segment.name.isSome then [(next.name : Int) - reader.name] else []

/-- A segment in writing, without what parts it from the one before. -/
def field (names : List String) (reader : MappingReader) (entry : Entry) : List Char :=
  (reader.numbers names entry).flatMap Vlq.text

variable {names : List String} {reader : MappingReader} {entry : Entry}

theorem not_mem_field (names : List String) (reader : MappingReader) (entry : Entry) :
    ',' ∉ reader.field names entry ∧ ';' ∉ reader.field names entry := by
  simp [field, Vlq.not_mem_text]

theorem field_ne_nil : reader.field names entry ≠ [] := by
  simp [field, numbers, Vlq.text_ne_nil]

/-- A segment is read as it was written. -/
theorem entry?_numbers (hname : ∀ name ∈ entry.segment.name, name ∈ names) :
    reader.entry? names entry.segment.generated.line.toNat (reader.numbers names entry) =
      some (reader.behind names entry, entry) := by
  obtain ⟨source, generated, origin, name⟩ := entry
  cases name with
  | none => simp [numbers, entry?, moved?_delta, place?_toNat, behind]
  | some name =>
    have hget : names[names.idxOf name]? = some name := List.getElem?_idxOf (hname name rfl)
    simp [numbers, entry?, moved?_delta, place?_toNat, behind, hget]

end MappingReader

namespace MappingState

variable {names : List String} {state : MappingState} {reader : MappingReader} {entry : Entry}

/-- A state and a reader know the same numbers. -/
structure Agrees (state : MappingState) (reader : MappingReader) : Prop where
  column : Holds state.column reader.column
  source : Holds state.source reader.source
  originLine : Holds state.originLine reader.originLine
  originColumn : Holds state.originColumn reader.originColumn
  name : Holds state.name reader.name

theorem agrees_start (line : UInt32) (lineStart : Bool) :
    ({ line, lineStart } : MappingState).Agrees {} := by
  have hzero : Holds 0 0 := ⟨rfl, by decide⟩
  exact ⟨hzero, hzero, hzero, hzero, hzero⟩

/-- On a new line the column is counted from zero. -/
theorem Agrees.newLine (h : state.Agrees reader) (line : UInt32) :
    { state with line, lineStart := true, column := 0 }.Agrees { reader with column := 0 } :=
  ⟨⟨rfl, Nat.two_pow_pos 62⟩, h.source, h.originLine, h.originColumn, h.name⟩

theorem Agrees.toLine (h : state.Agrees reader) (line : UInt32) :
    ∃ next separators reader', state.toLine line = (next, separators) ∧ next.Agrees reader' := by
  rw [MappingState.toLine]
  split
  · exact ⟨_, _, _, rfl, h.newLine line⟩
  · exact ⟨_, _, _, rfl, h⟩

/-- An entry whose numbers leave two bits of 64 free. -/
def Small (names : List String) (entry : Entry) : Prop :=
  entry.source < 2 ^ 62 ∧ ∀ name ∈ entry.segment.name, names.idxOf name < 2 ^ 62

theorem Agrees.behind (h : state.Agrees reader) (hsmall : Small names entry) :
    (state.behind names entry).Agrees (reader.behind names entry) := by
  refine ⟨holds_toNat _, holds_ofNat hsmall.1, holds_toNat _, holds_toNat _, ?_⟩
  obtain ⟨source, generated, origin, name⟩ := entry
  cases name with
  | none => exact h.name
  | some name => exact holds_ofNat (hsmall.2 name rfl)

/-- The numbers of an entry are written as they are. -/
theorem Agrees.fields (h : state.Agrees reader) (hsmall : Small names entry) :
    (state.numbers names entry).mapM Vlq.encode? =
      some ((reader.numbers names entry).map Vlq.text) := by
  have hnext := h.behind hsmall
  have hcolumn := hnext.column.encode?_sub h.column
  have hsource := hnext.source.encode?_sub h.source
  have hline := hnext.originLine.encode?_sub h.originLine
  have horigin := hnext.originColumn.encode?_sub h.originColumn
  have hname := hnext.name.encode?_sub h.name
  cases hsome : entry.segment.name.isSome <;>
    simp [numbers, MappingReader.numbers, hsome, hcolumn, hsource, hline, horigin, hname]

/-- What is written for an entry and those behind it. -/
theorem Agrees.write?_cons {entries : List Entry} {separators more : List Char}
    {next : MappingState} (hline : state.toLine entry.segment.generated.line = (next, separators))
    (h : next.Agrees reader) (hsmall : Small names entry)
    (hmore : write? names (next.behind names entry) entries = some more) :
    write? names state (entry :: entries) =
      some (separators ++ (reader.field names entry ++ more)) := by
  rw [write?, hline]
  simp [h.fields hsmall, hmore, MappingReader.field, List.flatMap]

/-- Entries are written to an end, in whatever order they are. -/
theorem Agrees.exists_write? {entries : List Entry} (h : state.Agrees reader)
    (hsmall : ∀ e ∈ entries, Small names e) : ∃ text, write? names state entries = some text := by
  induction entries generalizing state reader with
  | nil => exact ⟨[], rfl⟩
  | cons entry entries ih =>
    obtain ⟨hentry, hsmall⟩ := List.forall_mem_cons.mp hsmall
    obtain ⟨next, separators, reader', hline, hagrees⟩ := h.toLine entry.segment.generated.line
    obtain ⟨more, hmore⟩ := ih (hagrees.behind hentry) hsmall
    exact ⟨_, hagrees.write?_cons hline hentry hmore⟩

end MappingState

/-! ### All segments -/

namespace MappingReader

variable {names : List String} {line : Nat} {reader reader' : MappingReader} {entries : List Entry}

theorem lines?_nil_cons (texts : List (List Char)) :
    reader.lines? names line ([] :: texts) =
      { reader with column := 0 }.lines? names (line + 1) texts := by
  simp [lines?, entries?]

/-- The column before a line does not count. -/
theorem lines?_column (column : Nat) (texts : List (List Char)) :
    { reader with column := column }.lines? names line texts = reader.lines? names line texts := by
  cases texts <;> rfl

theorem lines?_replicate (n : Nat) (texts : List (List Char)) :
    reader.lines? names line (List.replicate n [] ++ texts) =
      reader.lines? names (line + n) texts := by
  induction n generalizing line with
  | zero => rfl
  | succ n ih =>
    rw [List.replicate_succ, List.cons_append, lines?_nil_cons, lines?_column, ih, Nat.add_assoc,
      Nat.add_comm 1 n]

/-- A text that begins with a segment of the line stands for the entries. -/
def Begins (names : List String) (line : Nat) (reader : MappingReader) (text : List Char)
    (entries : List Entry) : Prop :=
  ∃ current texts onLine more reader', text.splitOn ';' = current :: texts ∧ current ≠ [] ∧
    reader.entries? names line (current.splitOn ',') = some (reader', onLine) ∧
    reader'.lines? names (line + 1) texts = some more ∧ onLine ++ more = entries

/-- A text that stands behind a segment of the line stands for further entries. -/
def Resumes (names : List String) (line : Nat) (reader : MappingReader) (text : List Char)
    (entries : List Entry) : Prop :=
  ∃ current texts fields onLine more reader', text.splitOn ';' = current :: texts ∧
    current.splitOn ',' = [] :: fields ∧
    reader.entries? names line fields = some (reader', onLine) ∧
    reader'.lines? names (line + 1) texts = some more ∧ onLine ++ more = entries

variable {text : List Char}

theorem Resumes.nil : Resumes names line reader [] [] :=
  ⟨[], [], [], [], [], reader, rfl, rfl, rfl, rfl, rfl⟩

theorem Begins.lines? (h : Begins names line { reader with column := 0 } text entries) :
    reader.lines? names line (text.splitOn ';') = some entries := by
  obtain ⟨current, texts, onLine, more, reader', hsplit, hne, hline, hmore, rfl⟩ := h
  have hempty : current.isEmpty = false := by simpa using hne
  simp [hsplit, MappingReader.lines?, hempty, hline, hmore]

/-- Behind a comma a line goes on. -/
theorem Begins.comma (h : Begins names line reader text entries) :
    Resumes names line reader (',' :: text) entries := by
  obtain ⟨current, texts, onLine, more, reader', hsplit, -, hline, hmore, heq⟩ := h
  refine ⟨',' :: current, texts, current.splitOn ',', onLine, more, reader', ?_, ?_, hline, hmore, heq⟩
  · rw [List.splitOn_cons_eq_if_modifyHead, hsplit]
    rfl
  · rw [List.splitOn_cons_eq_if_modifyHead]
    rfl

/-- Behind semicolons a line begins. -/
theorem Begins.semicolons {n : Nat}
    (h : Begins names (line + (n + 1)) { reader with column := 0 } text entries) :
    Resumes names line reader (List.replicate (n + 1) ';' ++ text) entries := by
  refine ⟨[], List.replicate n [] ++ text.splitOn ';', [], [], entries, reader, ?_, rfl, rfl, ?_, rfl⟩
  · rw [splitOn_replicate]
    rfl
  · rw [lines?_replicate, Nat.add_assoc, Nat.add_comm 1 n]
    exact h.lines?

end MappingReader

namespace MappingState

open MappingReader

variable {names : List String} {state : MappingState} {reader : MappingReader} {entry : Entry}
  {entries : List Entry}

/-- A segment in writing, with more behind it that is read on. -/
theorem begins_field {rest : List Char} (hname : ∀ name ∈ entry.segment.name, name ∈ names)
    (h : Resumes names entry.segment.generated.line.toNat (reader.behind names entry) rest entries) :
    Begins names entry.segment.generated.line.toNat reader (reader.field names entry ++ rest)
      (entry :: entries) := by
  obtain ⟨current, texts, fields, onLine, more, reader', hsplit, hfields, hrest, hmore, rfl⟩ := h
  obtain ⟨hcomma, hsemicolon⟩ := not_mem_field names reader entry
  refine ⟨_, texts, entry :: onLine, more, reader', splitOn_append hsemicolon hsplit, ?_, ?_, hmore, rfl⟩
  · simp [field_ne_nil]
  · rw [splitOn_append hcomma hfields, List.append_nil, entries?]
    simp [field, Vlq.integers?_flatMap, entry?_numbers hname, hrest]

/-- Entries are written, behind a segment, and read back. -/
theorem resumes_write? (hstart : state.lineStart = false) (hagrees : state.Agrees reader)
    (hnames : ∀ e ∈ entries, ∀ name ∈ e.segment.name, name ∈ names)
    (hsmall : ∀ e ∈ entries, Small names e)
    (hlines : ∀ e ∈ entries, state.line ≤ e.segment.generated.line)
    (hsorted : entries.Pairwise fun e f => e.segment.generated.line ≤ f.segment.generated.line) :
    ∃ text, write? names state entries = some text ∧
      Resumes names state.line.toNat reader text entries := by
  induction entries generalizing state reader with
  | nil => exact ⟨[], rfl, .nil⟩
  | cons entry entries ih =>
    obtain ⟨hname, hnames⟩ := List.forall_mem_cons.mp hnames
    obtain ⟨hentry, hsmall⟩ := List.forall_mem_cons.mp hsmall
    obtain ⟨hfirst, hsorted⟩ := List.pairwise_cons.mp hsorted
    have hline := hlines entry (List.mem_cons_self ..)
    by_cases hlt : state.line < entry.segment.generated.line
    · have hagrees' := hagrees.newLine entry.segment.generated.line
      obtain ⟨text, htext, hresumes⟩ := ih rfl (hagrees'.behind hentry) hnames hsmall hfirst hsorted
      obtain ⟨n, hn⟩ : ∃ n, entry.segment.generated.line.toNat = state.line.toNat + (n + 1) := by
        rw [UInt32.lt_iff_toNat_lt] at hlt
        exact ⟨entry.segment.generated.line.toNat - state.line.toNat - 1, by omega⟩
      refine ⟨_, hagrees'.write?_cons (if_pos hlt) hentry htext, ?_⟩
      have hbegins := begins_field hname hresumes
      rw [hn] at hbegins
      rw [hn, Nat.add_sub_cancel_left]
      exact hbegins.semicolons
    · have hsame : state.line = entry.segment.generated.line :=
        UInt32.le_antisymm hline (UInt32.not_lt.mp hlt)
      have hcomma : state.toLine entry.segment.generated.line = (state, [',']) := by
        rw [toLine, if_neg hlt, hstart]
        rfl
      obtain ⟨text, htext, hresumes⟩ := ih
        (show (state.behind names entry).lineStart = false from rfl) (hagrees.behind hentry)
          hnames hsmall (hsame ▸ hfirst) hsorted
      refine ⟨_, hagrees.write?_cons hcomma hentry htext, ?_⟩
      have hbehind : (state.behind names entry).line = entry.segment.generated.line := hsame
      rw [hbehind] at hresumes
      rw [hsame]
      exact (begins_field hname hresumes).comma

/-- Only semicolons stand before the first segment. -/
theorem toLine_start (line : UInt32) :
    ({} : MappingState).toLine line = ({ line := line }, List.replicate line.toNat ';') := by
  rw [toLine]
  split
  · rfl
  · next hzero =>
    obtain rfl : line = 0 := UInt32.le_zero_iff.mp (UInt32.not_lt.mp hzero)
    rfl

/-- Entries are written and read back. -/
theorem lines?_write? (hnames : ∀ e ∈ entries, ∀ name ∈ e.segment.name, name ∈ names)
    (hsmall : ∀ e ∈ entries, Small names e)
    (hsorted : entries.Pairwise fun e f => e.segment.generated.line ≤ f.segment.generated.line) :
    ∃ text, write? names {} entries = some text ∧
      MappingReader.lines? names 0 {} (text.splitOn ';') = some entries := by
  cases entries with
  | nil => exact ⟨[], rfl, rfl⟩
  | cons entry entries =>
    obtain ⟨hname, hnames⟩ := List.forall_mem_cons.mp hnames
    obtain ⟨hentry, hsmall⟩ := List.forall_mem_cons.mp hsmall
    obtain ⟨hfirst, hsorted⟩ := List.pairwise_cons.mp hsorted
    have hagrees := agrees_start entry.segment.generated.line true
    obtain ⟨text, htext, hresumes⟩ :=
      resumes_write? rfl (hagrees.behind hentry) hnames hsmall hfirst hsorted
    refine ⟨_, hagrees.write?_cons (toLine_start _) hentry htext, ?_⟩
    have hbegins := begins_field hname hresumes
    rw [splitOn_replicate, lines?_replicate, Nat.zero_add]
    exact hbegins.lines?

end MappingState

/-! ### Names -/

/-- Without repetitions a list keeps the order of first uses. -/
theorem pairwise_eraseDups (names : List String) :
    names.eraseDups.Pairwise fun a b => names.idxOf a < names.idxOf b := by
  -- The induction adds names at the end, which leaves the places of earlier ones alone.
  induction names using List.reverseRecOn with
  | nil => simp
  | append_singleton names a ih =>
    have hkeep : names.eraseDups.Pairwise
        fun b c => (names ++ [a]).idxOf b < (names ++ [a]).idxOf c := by
      refine ih.imp_of_mem fun hb hc hlt => ?_
      rwa [List.idxOf_append_of_mem (List.mem_eraseDups.mp hb),
        List.idxOf_append_of_mem (List.mem_eraseDups.mp hc)]
    by_cases ha : a ∈ names
    · have hnone : [a].removeAll names = [] := by simp [List.removeAll, ha]
      simpa [List.eraseDups_append, hnone] using hkeep
    · have hone : [a].removeAll names = [a] := by simp [List.removeAll, ha]
      rw [List.eraseDups_append, hone]
      refine List.pairwise_append.mpr ⟨hkeep, by simp [List.eraseDups_cons], fun b hb c hc => ?_⟩
      obtain rfl : c = a := by simpa [List.eraseDups_cons] using hc
      have hmem := List.mem_eraseDups.mp hb
      rw [List.idxOf_append_of_mem hmem, List.idxOf_append_of_notMem ha]
      exact Nat.lt_add_right _ (List.idxOf_lt_length_of_mem hmem)

theorem nodup_eraseDups (names : List String) : names.eraseDups.Nodup :=
  (pairwise_eraseDups names).imp fun hlt heq => by simp [heq] at hlt

theorem Entry.mem_names {entries : List Entry} {e : Entry} (he : e ∈ entries) {name : String}
    (hname : name ∈ e.segment.name) : name ∈ names entries :=
  List.mem_eraseDups.mpr (List.mem_filterMap.mpr ⟨e, he, hname⟩)

theorem Entry.small {entries : List Entry} (hsources : ∀ e ∈ entries, e.source < 2 ^ 62)
    (hnames : (names entries).length ≤ 2 ^ 62) :
    ∀ e ∈ entries, MappingState.Small (names entries) e := fun e he =>
  ⟨hsources e he, fun _ hname =>
    Nat.lt_of_lt_of_le (List.idxOf_lt_length_of_mem (mem_names he hname)) hnames⟩

/-- Mappings have an end if sources and names are numbered in 62 bits. -/
theorem Entry.exists_encode? {entries : List Entry} (hsources : ∀ e ∈ entries, e.source < 2 ^ 62)
    (hnames : (names entries).length ≤ 2 ^ 62) :
    ∃ mappings, Entry.encode? entries = some (names entries, mappings) := by
  obtain ⟨text, htext⟩ := (MappingState.agrees_start 0 true).exists_write? (small hsources hnames)
  exact ⟨String.ofList text, by rw [Entry.encode?, htext]; rfl⟩

/-- Mappings and names together stand for the entries that they were made of, if sources and names
are numbered in 62 bits. Every name is listed once, and names come in the order in which entries
first use them. -/
theorem Entry.decode?_encode (entries : List Entry)
    (hsorted : entries.Pairwise fun e f => e.segment.generated.line ≤ f.segment.generated.line)
    (hsources : ∀ e ∈ entries, e.source < 2 ^ 62) (hnames : (names entries).length ≤ 2 ^ 62) :
    let uses := entries.filterMap (·.segment.name)
    ∃ names mappings, Entry.encode? entries = some (names, mappings) ∧
      Entry.decode? names mappings = some entries ∧ names.Nodup ∧
      (∀ name, name ∈ names ↔ name ∈ uses) ∧
      names.Pairwise fun a b => uses.idxOf a < uses.idxOf b := by
  obtain ⟨text, htext, hread⟩ :=
    MappingState.lines?_write? (fun e he name => mem_names he) (small hsources hnames) hsorted
  refine ⟨_, _, by rw [Entry.encode?, htext]; rfl, ?_, nodup_eraseDups _,
    fun name => List.mem_eraseDups, pairwise_eraseDups _⟩
  rwa [Entry.decode?, String.toList_ofList]

/-- Two segments of one line and a third one two lines below, the first and the last of which name
something. -/
theorem Entry.decode?_encode_three :
    let entries : List Entry :=
      [⟨0, ⟨0, 4⟩, ⟨2, 7⟩, some "root"⟩, ⟨0, ⟨0, 9⟩, ⟨2, 30⟩, none⟩, ⟨1, ⟨2, 3⟩, ⟨0, 0⟩, some "bar"⟩]
    (entries.Pairwise fun e f => e.segment.generated.line ≤ f.segment.generated.line) ∧
      (∀ e ∈ entries, e.source < 2 ^ 62) ∧ (names entries).length ≤ 2 ^ 62 ∧
      ∃ names mappings, Entry.encode? entries = some (names, mappings) ∧
        Entry.decode? names mappings = some entries := by
  intro entries
  have hsorted : entries.Pairwise fun e f => e.segment.generated.line ≤ f.segment.generated.line := by
    decide
  have hsources : ∀ e ∈ entries, e.source < 2 ^ 62 := by decide
  have hnames : (names entries).length ≤ 2 ^ 62 := by decide
  obtain ⟨names, mappings, hencode, hdecode, -⟩ :=
    Entry.decode?_encode entries hsorted hsources hnames
  exact ⟨hsorted, hsources, hnames, names, mappings, hencode, hdecode⟩

end EcmaPress
