import Mathlib.Algebra.Group.Nat.Defs
import Mathlib.Data.List.TakeWhile
import EcmaPress.Pattern.Atom
import EcmaPress.Proofs.LosslessCharsets

/-!
# Where coding errors point

An error of a character set names what it has stumbled on by positions. For a text that cannot be
written these are the first characters that have no bytes, all of them up to the next one that has
some. For bytes that are no text, everything before the first position is a text and nothing longer
is. What is cut off at its end is told from what is wrong anyhow.
-/

namespace EcmaPress

/-! ### Numbers in hexadecimal -/

/-- The number that hexadecimal digits stand for. -/
def hexNumber (digits : List Char) : Nat :=
  digits.foldl (fun value digit => 16 * value + Pattern.hexValue digit) 0

/-- A text of so many small hexadecimal digits that stands for a number. -/
structure IsHex (width n : Nat) (text : String) : Prop where
  length : text.toList.length = width
  digits : ∀ digit ∈ text.toList, digit.isDigit ∨ 'a' ≤ digit ∧ digit ≤ 'f'
  number : hexNumber text.toList = n

theorem hexNumber_append (front back : List Char) : hexNumber (front ++ back) =
    back.foldl (fun value digit => 16 * value + Pattern.hexValue digit) (hexNumber front) :=
  List.foldl_append

theorem hexNumber_toDigits (n : Nat) : hexNumber (Nat.toDigits 16 n) = n := by
  have hdigit : ∀ d < 16, Pattern.hexValue (Nat.digitChar d) = d := by decide
  induction n using Nat.strongRecOn with
  | ind n ih =>
    rw [Nat.toDigits_eq_if (by decide)]
    split
    · next hlt => simpa [hexNumber] using hdigit n hlt
    · rw [hexNumber_append, ih (n / 16) (by omega), List.foldl_cons, List.foldl_nil,
        hdigit _ (Nat.mod_lt n (by decide)), Nat.div_add_mod]

theorem isHexDigit_of_mem_toDigits {n : Nat} {digit : Char} (h : digit ∈ Nat.toDigits 16 n) :
    digit.isDigit ∨ 'a' ≤ digit ∧ digit ≤ 'f' := by
  have hdigit : ∀ d < 16, (Nat.digitChar d).isDigit ∨
      'a' ≤ Nat.digitChar d ∧ Nat.digitChar d ≤ 'f' := by decide
  induction n using Nat.strongRecOn with
  | ind n ih =>
    rw [Nat.toDigits_eq_if (by decide)] at h
    split at h
    · next hlt =>
      rw [List.mem_singleton.mp h]
      exact hdigit n hlt
    · obtain h | h := List.mem_append.mp h
      · exact ih (n / 16) (by omega) h
      · rw [List.mem_singleton.mp h]
        exact hdigit _ (Nat.mod_lt n (by decide))

theorem hexNumber_zeros (count : Nat) (digits : List Char) :
    hexNumber (List.replicate count '0' ++ digits) = hexNumber digits := by
  induction count with
  | zero => rfl
  | succ count ih => exact ih

theorem isHex_paddedHex {width n : Nat} (hwidth : 0 < width) (h : n < 16 ^ width) :
    IsHex width n (paddedHex width n) where
  length := by
    have hlength := (Nat.length_toDigits_le_iff (by decide) hwidth).mpr h
    simp [paddedHex]
    omega
  digits := by
    intro digit hdigit
    simp only [paddedHex, String.toList_append, String.toList_ofList, List.mem_append,
      List.mem_replicate] at hdigit
    obtain ⟨-, rfl⟩ | hdigit := hdigit
    · exact .inl rfl
    · exact isHexDigit_of_mem_toDigits hdigit
  number := by
    simp only [paddedHex, String.toList_append, String.toList_ofList, hexNumber_zeros,
      hexNumber_toDigits]

/-! ### Characters that cannot be written -/

/-- A character by its number, in as many hexadecimal digits as numbers of its size take. -/
def IsEscape (c : Char) (text : String) : Prop :=
  ∃ digits, IsHex (if c.toNat < 0x100 then 2 else if c.toNat < 0x10000 then 4 else 8) c.toNat digits ∧
    text = (if c.toNat < 0x100 then "\\x" else if c.toNat < 0x10000 then "\\u" else "\\U") ++ digits

theorem isEscape_shown (c : Char) : IsEscape c (Unwritten.span.shown c) := by
  unfold IsEscape Unwritten.span.shown
  split
  · next h => exact ⟨_, isHex_paddedHex (by decide) h, rfl⟩
  · split
    · next h => exact ⟨_, isHex_paddedHex (by decide) h, rfl⟩
    · exact ⟨_, isHex_paddedHex (by decide) c.val.toNat_lt, rfl⟩

/-- An encoding error names the characters from `p` to `q`: the first ones with a number that is not
below the limit, all of them up to the next one that is. A single character is shown. -/
structure EncodeError.Names (e : EncodeError) (limit : Nat) (text : List Char) (p q : Nat) : Prop where
  ordered : p ≤ q
  before : ∀ i < p, ∀ c, text[i]? = some c → c.toNat < limit
  within : ∀ i, p ≤ i → i ≤ q → ∃ c, text[i]? = some c ∧ limit ≤ c.toNat
  behind : ∀ c, text[q + 1]? = some c → c.toNat < limit
  single : p = q → ∃ c escape, text[p]? = some c ∧ IsEscape c escape ∧
    e.fault.span = s!"character '{escape}' in position {p}"
  several : p ≠ q → e.fault.span = s!"characters in position {p}-{q}"
  message : e.message =
    s!"'{e.charset.name}' codec can't encode {e.fault.span}: " ++ s!"ordinal not in range({limit})"

namespace Encoder

variable {bytes? : Char → Option (List UInt8)}

/-- Writing stops at the first character that has no bytes, and tells all that follow it without one
between that has some. -/
theorem writeAll_eq_error {position : Nat} {done : List UInt8} {text : List Char}
    {fault : Unwritten} (h : (mk bytes?).writeAll position done text = .error fault) :
    ∃ front c rest, text = front ++ c :: rest ∧ (∀ d ∈ front, (bytes? d).isSome) ∧
      bytes? c = none ∧
      fault = ⟨position + front.length, c, rest.takeWhile fun d => (bytes? d).isNone⟩ := by
  induction text generalizing position done with
  | nil => simp [writeAll] at h
  | cons c text ih =>
    cases hc : bytes? c with
    | none =>
      simp only [writeAll, hc] at h
      obtain rfl := Except.error.inj h
      exact ⟨[], c, text, rfl, List.forall_mem_nil _, hc, rfl⟩
    | some bytes =>
      simp only [writeAll, hc] at h
      obtain ⟨front, d, rest, rfl, hfront, hd, rfl⟩ := ih h
      refine ⟨c :: front, d, rest, rfl, ?_, hd, ?_⟩
      · exact List.forall_mem_cons.mpr ⟨by rw [hc]; rfl, hfront⟩
      · rw [List.length_cons, Nat.add_assoc, Nat.add_comm 1]

end Encoder

/-- An error that tells a run of characters beyond the limit names it. -/
theorem EncodeError.names_run {charset : Charset} {limit : Nat}
    (hreason : charset.reason = .ordinal limit) {front run back : List Char} {first : Char}
    (hfront : ∀ c ∈ front, c.toNat < limit)
    (hrun : ∀ c ∈ first :: run, limit ≤ c.toNat) (hback : ∀ c ∈ back.head?, c.toNat < limit) :
    EncodeError.Names ⟨charset, ⟨front.length, first, run⟩⟩ limit (front ++ (first :: run ++ back))
      front.length (front.length + run.length) where
  ordered := Nat.le_add_right ..
  before := by
    intro i hi c hc
    rw [List.getElem?_append_left hi] at hc
    exact hfront c (List.mem_of_getElem? hc)
  within := by
    intro i hpi hiq
    have hi : i - front.length < (first :: run).length := by
      rw [List.length_cons]
      omega
    rw [List.getElem?_append_right hpi, List.getElem?_append_left hi, List.getElem?_eq_getElem hi]
    exact ⟨_, rfl, hrun _ (List.getElem_mem hi)⟩
  behind := by
    intro c hc
    have hindex : front.length + run.length + 1 - front.length - (first :: run).length = 0 := by
      rw [List.length_cons]
      omega
    rw [List.getElem?_append_right (by omega), List.getElem?_append_right (by simp; omega), hindex,
      ← List.head?_eq_getElem?] at hc
    exact hback c hc
  single := by
    intro hpq
    obtain rfl : run = [] := List.eq_nil_of_length_eq_zero (by omega)
    refine ⟨first, Unwritten.span.shown first, ?_, isEscape_shown first, rfl⟩
    simp
  several := by
    intro hpq
    cases run with
    | nil => exact absurd rfl hpq
    | cons second run => rfl
  message := by
    rw [EncodeError.message, hreason]
    rfl

namespace Charset

variable [LegacyCoding]

/-- A text is written if all its characters are below the limit of the set, and otherwise the error
names the first ones that are not. -/
theorem encode_names {charset : Charset} {limit : Nat}
    (hwrite : charset.write = (Encoder.mk (byteBelow limit)).encode)
    (hreason : charset.reason = .ordinal limit) (text : String) :
    ((∀ c ∈ text.toList, c.toNat < limit) ∧ ∃ bytes, charset.encode text = .ok bytes) ∨
      ∃ e p q, charset.encode text = .error e ∧ e.charset = charset ∧
        e.Names limit text.toList p q := by
  cases hencode : charset.write text.toList with
  | ok bytes =>
    refine .inl ⟨fun c hc => ?_, bytes, by rw [encode, hencode]⟩
    rw [hwrite, Encoder.encode_eq_ok] at hencode
    have hall := isSome_bytesOf?.mp (Option.isSome_of_eq_some hencode) c hc
    exact isSome_byteBelow.mp hall
  | error fault =>
    right
    have herror : charset.encode text = .error ⟨charset, fault⟩ := by
      rw [encode, hencode]
    rw [hwrite] at hencode
    obtain ⟨front, first, rest, htext, hfront, hfirst, rfl⟩ :=
      Encoder.writeAll_eq_error hencode
    have hnone : ∀ {d : Char}, (byteBelow limit d).isNone → limit ≤ d.toNat := by
      intro d hd
      rw [← Nat.not_lt, ← isSome_byteBelow, Option.not_isSome_iff_eq_none]
      exact Option.isNone_iff_eq_none.mp hd
    have hrun : ∀ d ∈ first :: rest.takeWhile (fun d => (byteBelow limit d).isNone),
        limit ≤ d.toNat := by
      refine List.forall_mem_cons.mpr ⟨hnone (by rw [hfirst]; rfl), fun d hd => ?_⟩
      have htake := List.mem_takeWhile_imp hd
      exact hnone htake
    have hback : ∀ d ∈ (rest.dropWhile fun d => (byteBelow limit d).isNone).head?,
        d.toNat < limit := by
      intro d hd
      have hhead := List.head?_dropWhile_not (fun d => (byteBelow limit d).isNone) rest
      rw [Option.mem_def.mp hd] at hhead
      rw [← isSome_byteBelow]
      simpa using hhead
    have hnames := EncodeError.names_run hreason (fun d hd => isSome_byteBelow.mp (hfront d hd)) hrun
      hback
    rw [List.cons_append, List.takeWhile_append_dropWhile, ← htext] at hnames
    rw [Nat.zero_add] at herror
    exact ⟨_, _, _, herror, rfl, hnames⟩

end Charset

/-! ### Bytes that cannot be read -/

/-- A decoding error names the bytes from `p` to `q`, which are there. What stands before them can be
read, and nothing longer can. A single byte is shown. -/
structure DecodeError.Names [LegacyCoding] (e : DecodeError) (bytes : List UInt8) (p q : Nat) :
    Prop where
  ordered : p ≤ q
  inside : q < bytes.length
  reads : ∃ text, e.charset.decode (bytes.take p) = .ok text
  longest : ∀ n ≤ bytes.length, (∃ text, e.charset.decode (bytes.take n) = .ok text) → n ≤ p
  single : p = q → ∃ byte digits, bytes[p]? = some byte ∧ IsHex 2 byte.toNat digits ∧
    e.fault.span = s!"byte 0x{digits} in position {p}"
  several : p ≠ q → e.fault.span = s!"bytes in position {p}-{q}"
  message : e.message =
    s!"'{e.charset.name}' codec can't decode {e.fault.span}: " ++ e.fault.reason.message

namespace Inverse

variable {read : UInt8 → List UInt8 → Reading} {bytes? : Char → Option (List UInt8)}

/-- What is read as a character is there, and is read as one whatever stands behind it. -/
theorem read_append (h : Inverse read bytes?) {byte : UInt8} {rest : List UInt8} {c : Char} {n : Nat}
    (hread : read byte rest = .char c n) :
    (rest.take n).length = n ∧ ∀ back, read byte (rest ++ back) = .char c n := by
  obtain ⟨lead, trail, htrail, hreads⟩ := h.reads (h.writes hread)
  obtain ⟨rfl, rfl⟩ := List.cons.inj htrail
  have hsame := hreads (rest.drop n)
  rw [List.take_append_drop, hread] at hsame
  have hlength : (rest.take n).length = n := (Reading.char.inj hsame).2.symm
  refine ⟨hlength, fun back => ?_⟩
  have hback := hreads (rest.drop n ++ back)
  rwa [← List.append_assoc, List.take_append_drop, hlength] at hback

/-- The text of a front begins the text of the whole. -/
theorem bytesOf?_of_append (h : Inverse read bytes?) {text whole : List Char}
    {front back : List UInt8} (htext : bytesOf? bytes? text = some front)
    (hwhole : bytesOf? bytes? whole = some (front ++ back)) :
    ∃ more, whole = text ++ more ∧ bytesOf? bytes? more = some back := by
  induction text generalizing whole front with
  | nil =>
    obtain rfl := Option.some.inj htext
    exact ⟨whole, rfl, hwhole⟩
  | cons c text ih =>
    obtain ⟨first, others, hfirst, hothers, rfl⟩ := bytesOf?_cons_eq_some.mp htext
    obtain ⟨lead, trail, rfl, hreads⟩ := h.reads hfirst
    rw [List.append_assoc, List.cons_append] at hwhole
    obtain ⟨d, more, n, rfl, hread, hmore⟩ := h.read_of_bytesOf? hwhole
    cases (hreads (others ++ back)).symm.trans hread
    rw [List.drop_left] at hmore
    obtain ⟨rest, rfl, hrest⟩ := ih hothers hmore
    exact ⟨rest, rfl, hrest⟩

/-- Reading stops behind some text at a byte where no character can be read. -/
theorem readAll_eq_error (h : Inverse read bytes?) {position : Nat} {done : List Char}
    {bytes : List UInt8} {fault : Misread}
    (herror : (Decoder.mk read).readAll position done bytes = .error fault) :
    ∃ text front byte rest reason more, bytesOf? bytes? text = some front ∧
      bytes = front ++ byte :: rest ∧ read byte rest = .fault reason more ∧
      fault = ⟨position + front.length, byte :: rest.take more, reason⟩ := by
  fun_induction Decoder.readAll (Decoder.mk read) position done bytes with
  | case1 position done => cases herror
  | case2 position done byte rest c n hread ih =>
    have hc := h.writes hread
    obtain ⟨text, middle, byte', rest', reason, more, htext, hrest, hfault, rfl⟩ := ih herror
    refine ⟨c :: text, byte :: rest.take n ++ middle, byte', rest', reason, more, ?_, ?_, hfault, ?_⟩
    · exact bytesOf?_cons_eq_some.mpr ⟨_, _, hc, htext, rfl⟩
    · rw [List.append_assoc, ← hrest, List.cons_append, List.take_append_drop]
    · rw [List.length_append, List.length_cons, (h.read_append hread).1]
      simp only [Misread.mk.injEq, and_true]
      omega
  | case3 position done byte rest reason more hread =>
    obtain rfl := Except.error.inj herror
    exact ⟨[], [], byte, rest, reason, more, rfl, rfl, hread, rfl⟩

end Inverse

namespace Charset

variable [LegacyCoding] {charset : Charset} {read : UInt8 → List UInt8 → Reading}
  {bytes? : Char → Option (List UInt8)}

theorem exists_decode_eq_ok (h : Inverse read bytes?)
    (hcharset : charset.read = (Decoder.mk read).decode) {bytes : List UInt8} :
    (∃ text, charset.decode bytes = .ok text) ↔ ∃ text, bytesOf? bytes? text = some bytes := by
  simp only [decode_eq_ok, hcharset, h.decode_eq_ok]
  constructor
  · rintro ⟨text, htext⟩
    exact ⟨text.toList, htext⟩
  · rintro ⟨text, htext⟩
    exact ⟨String.ofList text, by rwa [String.toList_ofList]⟩

/-- The error of bytes that cannot be read names the first of them where no character can be read,
and tells why. -/
theorem decode_names (h : Inverse read bytes?) (hcharset : charset.read = (Decoder.mk read).decode)
    {bytes : List UInt8} {e : DecodeError} (herror : charset.decode bytes = .error e) :
    ∃ p q byte rest more, e.charset = charset ∧ e.Names bytes p q ∧ bytes.drop p = byte :: rest ∧
      read byte rest = .fault e.fault.reason more := by
  have hreads := @exists_decode_eq_ok _ charset read bytes? h hcharset
  cases hdecode : charset.read bytes with
  | ok text => simp [decode, hdecode] at herror
  | error fault =>
    obtain rfl : DecodeError.mk charset fault = e := by simpa [decode, hdecode] using herror
    rw [hcharset] at hdecode
    obtain ⟨text, front, byte, rest, reason, more, htext, rfl, hfault, hplace⟩ :=
      h.readAll_eq_error hdecode
    rw [Nat.zero_add] at hplace
    subst hplace
    refine ⟨front.length, front.length + (rest.take more).length, byte, rest, more, rfl, ?_,
      List.drop_left, hfault⟩
    refine ⟨Nat.le_add_right .., ?_, ?_, ?_, ?_, ?_, rfl⟩
    · rw [List.length_append, List.length_cons, List.length_take]
      omega
    · rw [List.take_left]
      exact hreads.mpr ⟨text, htext⟩
    · intro n hn hwhole
      apply Nat.le_of_not_lt
      intro hlt
      obtain ⟨k, rfl⟩ := Nat.exists_eq_add_of_lt hlt
      -- A longer text would go on with a character where none can be read.
      obtain ⟨whole, hwhole⟩ := hreads.mp hwhole
      rw [Nat.add_assoc, List.take_length_add_append, List.take_succ_cons] at hwhole
      obtain ⟨others, -, hothers⟩ := h.bytesOf?_of_append htext hwhole
      obtain ⟨c, _, m, -, hread, -⟩ := h.read_of_bytesOf? hothers
      have hagain := (h.read_append hread).2 (rest.drop k)
      rw [List.take_append_drop] at hagain
      cases hfault.symm.trans hagain
    · intro hpq
      have hnil : rest.take more = [] := List.eq_nil_of_length_eq_zero (by omega)
      refine ⟨byte, paddedHex 2 byte.toNat, by simp, isHex_paddedHex (by decide) byte.toNat_lt, ?_⟩
      rw [hnil]
      rfl
    · intro hpq
      cases hmore : rest.take more with
      | nil => simp [hmore] at hpq
      | cons second others => rfl

end Charset

/-! ### Texts that are cut off -/

namespace Utf8

variable {ranges : List (UInt8 × UInt8)} {rest : List UInt8}

theorem matching_le_length : matching ranges rest ≤ ranges.length := by
  fun_induction matching ranges rest with
  | case1 low high ranges byte rest hrange ih => exact Nat.succ_le_succ ih
  | case2 => exact Nat.zero_le _
  | case3 => exact Nat.zero_le _

/-- Bytes that end before the ranges do can go on with the lowest byte of each range. -/
theorem matching_append_low (hranges : ∀ range ∈ ranges, range.1 ≤ range.2)
    (h : matching ranges rest = rest.length) :
    matching ranges (rest ++ (ranges.drop rest.length).map Prod.fst) = ranges.length := by
  induction ranges generalizing rest with
  | nil =>
    cases rest with
    | nil => rfl
    | cons byte rest => cases h
  | cons range ranges ih =>
    obtain ⟨hrange, hranges⟩ := List.forall_mem_cons.mp hranges
    cases rest with
    | nil =>
      have hlow : range.1 ≤ range.1 ∧ range.1 ≤ range.2 := ⟨UInt8.le_refl _, hrange⟩
      have hothers : matching ranges ([] ++ (ranges.drop 0).map Prod.fst) = ranges.length :=
        ih hranges (by unfold matching; split <;> simp_all)
      rw [List.nil_append, List.length_nil, List.drop_zero, List.map_cons, matching, if_pos hlow]
      exact congrArg (· + 1) hothers
    | cons byte rest =>
      rw [matching, List.length_cons] at h
      split at h
      · next hbyte =>
        rw [List.cons_append, matching, if_pos hbyte, List.length_cons, List.length_cons,
          List.drop_succ_cons, ih hranges (Nat.succ.inj h)]
      · cases h

/-- Where bytes leave the ranges, it does not matter what stands behind them. -/
theorem matching_append (h : matching ranges rest ≠ ranges.length)
    (h' : matching ranges rest ≠ rest.length) (back : List UInt8) :
    matching ranges (rest ++ back) = matching ranges rest := by
  fun_induction matching ranges rest with
  | case1 low high ranges byte rest hrange ih =>
    rw [List.cons_append, matching, if_pos hrange, ih (by simpa using h) (by simpa using h')]
  | case2 low high ranges byte rest hrange => rw [List.cons_append, matching, if_neg hrange]
  | case3 ranges rest hcons =>
    cases ranges with
    | nil => exact absurd rfl h
    | cons range ranges =>
      cases rest with
      | nil => exact absurd rfl h'
      | cons byte rest => exact (hcons _ _ _ _ _ rfl rfl).elim

theorem followers_ordered {lead : UInt8} (h : followers lead = some ranges) :
    ∀ range ∈ ranges, range.1 ≤ range.2 := by
  unfold followers at h
  repeat' split at h
  all_goals cases h
  all_goals simp

/-- A character is read where each range of its lead byte has a byte. -/
theorem exists_char_iff {lead : UInt8} : (∃ c n, read lead rest = .char c n) ↔
    ∃ ranges, followers lead = some ranges ∧ matching ranges rest = ranges.length := by
  unfold read
  cases followers lead with
  | none => simp
  | some ranges =>
    by_cases hmatching : matching ranges rest = ranges.length
    · simp [hmatching]
    · simp only [hmatching, if_false, Option.some.injEq, exists_eq_left', iff_false]
      split <;> simp

/-- The bytes that all lie in the ranges of the lead byte, one in each, are those of a character. -/
theorem exists_text_of_matching {lead : UInt8} (hfollowers : followers lead = some ranges)
    (h : matching ranges rest = ranges.length) (hlength : rest.length = ranges.length) :
    ∃ text, bytesOf? (fun c => some (String.utf8EncodeChar c)) text = some (lead :: rest) := by
  have hread : read lead rest = .char (assemble lead rest) rest.length := by
    simp only [read, hfollowers, h, if_true, ← hlength, List.take_length]
  have hc := inverse.writes hread
  rw [List.take_length] at hc
  exact ⟨[_], bytesOf?_cons_eq_some.mpr ⟨_, [], hc, rfl, List.append_nil _⟩⟩

/-- A fault is told as the end of the data just if the bytes could go on as a text. -/
theorem endOfData_iff {lead : UInt8} {reason : CodingFault} {more : Nat}
    (h : read lead rest = .fault reason more) : reason = .endOfData ↔
      ∃ back text, bytesOf? (fun c => some (String.utf8EncodeChar c)) text =
        some (lead :: (rest ++ back)) := by
  unfold read at h
  cases hfollowers : followers lead with
  | none =>
    simp only [hfollowers, Reading.fault.injEq] at h
    obtain ⟨rfl, -⟩ := h
    refine iff_of_false nofun ?_
    rintro ⟨back, text, htext⟩
    obtain ⟨c, -, n, -, hread, -⟩ := inverse.read_of_bytesOf? htext
    obtain ⟨ranges, hsome, -⟩ := exists_char_iff.mp ⟨_, _, hread⟩
    cases hfollowers.symm.trans hsome
  | some ranges =>
    simp only [hfollowers] at h
    have hshort : matching ranges rest ≠ ranges.length := by
      intro hmatching
      simp [hmatching] at h
    rw [if_neg hshort] at h
    by_cases hend : matching ranges rest = rest.length
    · rw [if_pos hend] at h
      obtain ⟨rfl, -⟩ := Reading.fault.inj h
      refine iff_of_true rfl ⟨(ranges.drop rest.length).map Prod.fst, ?_⟩
      apply exists_text_of_matching hfollowers
      · exact matching_append_low (followers_ordered hfollowers) hend
      · have hle : rest.length ≤ ranges.length := hend ▸ matching_le_length
        rw [List.length_append, List.length_map, List.length_drop, Nat.add_sub_cancel' hle]
    · rw [if_neg hend] at h
      obtain ⟨rfl, -⟩ := Reading.fault.inj h
      refine iff_of_false nofun ?_
      rintro ⟨back, text, htext⟩
      obtain ⟨c, -, n, -, hread, -⟩ := inverse.read_of_bytesOf? htext
      obtain ⟨ranges', hsome, hmatching⟩ := exists_char_iff.mp ⟨_, _, hread⟩
      cases hfollowers.symm.trans hsome
      rw [matching_append hshort hend] at hmatching
      exact hshort hmatching

theorem reason_of_read {lead : UInt8} {reason : CodingFault} {more : Nat}
    (h : read lead rest = .fault reason more) :
    reason.message = "unexpected end of data" ↔ reason = .endOfData := by
  unfold read at h
  split at h
  · obtain ⟨rfl, -⟩ := Reading.fault.inj h
    decide
  · dsimp only at h
    repeat' split at h
    all_goals cases h
    all_goals decide

end Utf8

namespace Charset

section

variable [LegacyCoding]

/-- The errors of the sets that give numbers or UTF-8 point at what is wrong. A text that ASCII or
Latin-1 cannot write is refused with the first run of characters beyond the limit; bytes that UTF-8
or ASCII cannot read are refused with the first of them behind the longest text that they begin
with, and UTF-8 tells that they end too early just if they could go on. -/
theorem faults_placed :
    (∀ text : String,
      ((∀ c ∈ text.toList, c.toNat < 128) ∧ ∃ bytes, encode .ascii text = .ok bytes) ∨
        ∃ e p q, encode .ascii text = .error e ∧ e.charset = .ascii ∧
          e.Names 128 text.toList p q) ∧
    (∀ text : String,
      ((∀ c ∈ text.toList, c.toNat < 256) ∧ ∃ bytes, encode .latin1 text = .ok bytes) ∨
        ∃ e p q, encode .latin1 text = .error e ∧ e.charset = .latin1 ∧
          e.Names 256 text.toList p q) ∧
    (∀ bytes, (¬ ∃ text, decode .utf8 bytes = .ok text) → ∃ e p q,
      decode .utf8 bytes = .error e ∧ e.charset = .utf8 ∧ e.Names bytes p q ∧
        (e.fault.reason.message = "unexpected end of data" ↔
          ∃ back text, decode .utf8 (bytes.drop p ++ back) = .ok text)) ∧
    (∀ bytes, (¬ ∃ text, decode .ascii bytes = .ok text) → ∃ e p q,
      decode .ascii bytes = .error e ∧ e.charset = .ascii ∧ e.Names bytes p q) := by
  refine ⟨encode_names rfl rfl, encode_names rfl rfl, ?_, ?_⟩
  · intro bytes hbytes
    obtain ⟨e, he⟩ := exists_error_iff.mpr hbytes
    obtain ⟨p, q, byte, rest, more, hcharset, hnames, hdrop, hfault⟩ :=
      decode_names Utf8.inverse rfl he
    refine ⟨e, p, q, he, hcharset, hnames, ?_⟩
    rw [Utf8.reason_of_read hfault, Utf8.endOfData_iff hfault, hdrop]
    refine exists_congr fun back => ?_
    exact (exists_decode_eq_ok Utf8.inverse rfl).symm
  · intro bytes hbytes
    obtain ⟨e, he⟩ := exists_error_iff.mpr hbytes
    obtain ⟨p, q, byte, rest, more, hcharset, hnames, -, -⟩ :=
      decode_names (inverse_below (by decide) (.ordinal 128)) rfl he
    exact ⟨e, p, q, he, hcharset, hnames⟩

end

open scoped LegacyCoding in
/-- Two characters that ASCII cannot write, and a sequence of UTF-8 that ends too early. -/
theorem faults_placed_two :
    (∃ e p q, encode .ascii "var \u4e2d\u6587=1" = .error e ∧
      e.message = "'ascii' codec can't encode characters in position 4-5: ordinal not in range(128)" ∧
      e.Names 128 "var \u4e2d\u6587=1".toList p q) ∧
    ∃ e p q, decode .utf8 [0x61, 0x62, 0xe4, 0xb8] = .error e ∧
      e.message = "'utf-8' codec can't decode bytes in position 2-3: unexpected end of data" ∧
      e.Names [0x61, 0x62, 0xe4, 0xb8] p q := by
  obtain ⟨hascii, -, hutf8, -⟩ := faults_placed
  constructor
  · have hwrite : encode .ascii "var \u4e2d\u6587=1" =
        .error ⟨.ascii, ⟨4, '\u4e2d', ['\u6587']⟩⟩ := by decide +kernel
    obtain ⟨-, bytes, hbytes⟩ | ⟨e, p, q, he, -, hnames⟩ := hascii "var \u4e2d\u6587=1"
    · cases hwrite.symm.trans hbytes
    obtain rfl := Except.error.inj (hwrite.symm.trans he)
    exact ⟨_, p, q, he, by decide +kernel, hnames⟩
  · have hread : decode .utf8 [0x61, 0x62, 0xe4, 0xb8] =
        .error ⟨.utf8, ⟨2, [0xe4, 0xb8], .endOfData⟩⟩ := by decide +kernel
    obtain ⟨e, p, q, he, -, hnames, -⟩ := hutf8 [0x61, 0x62, 0xe4, 0xb8] (by simp [hread])
    obtain rfl := Except.error.inj (hread.symm.trans he)
    exact ⟨_, p, q, he, by decide +kernel, hnames⟩

end Charset
end EcmaPress
