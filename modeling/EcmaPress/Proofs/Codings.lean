import EcmaPress.Charset

/-!
# Exact inverses

A set that reads and writes one character after the other reads what it writes, and writes what it
reads, if this is so for each character. The sets in which a character is the number of its byte are
of that kind.
-/

namespace EcmaPress

/-! ### One character after the other -/

/-- The bytes of a text, if all its characters have some. -/
def bytesOf? (bytes? : Char → Option (List UInt8)) : List Char → Option (List UInt8)
  | [] => some []
  | c :: text => do return (← bytes? c) ++ (← bytesOf? bytes? text)

section

variable {bytes? : Char → Option (List UInt8)}

theorem bytesOf?_cons_eq_some {c : Char} {text : List Char} {bytes : List UInt8} :
    bytesOf? bytes? (c :: text) = some bytes ↔
      ∃ front back, bytes? c = some front ∧ bytesOf? bytes? text = some back ∧
        front ++ back = bytes := by
  simp [bytesOf?, Option.bind_eq_some_iff]

theorem isSome_bytesOf? {text : List Char} :
    (bytesOf? bytes? text).isSome ↔ ∀ c ∈ text, (bytes? c).isSome := by
  simp only [Option.isSome_iff_exists]
  induction text with
  | nil => simp [bytesOf?]
  | cons c text ih =>
    rw [List.forall_mem_cons, ← ih]
    constructor
    · rintro ⟨bytes, h⟩
      obtain ⟨front, back, hfront, hback, -⟩ := bytesOf?_cons_eq_some.mp h
      exact ⟨⟨front, hfront⟩, back, hback⟩
    · rintro ⟨⟨front, hfront⟩, back, hback⟩
      exact ⟨front ++ back, bytesOf?_cons_eq_some.mpr ⟨front, back, hfront, hback, rfl⟩⟩

/-- Bytes are those of a text just if they are made up of the bytes of characters. -/
theorem exists_bytesOf? {bytes : List UInt8} : (∃ text, bytesOf? bytes? text = some bytes) ↔
    ∃ parts : List (List UInt8), parts.flatten = bytes ∧
      ∀ part ∈ parts, ∃ c, bytes? c = some part := by
  constructor
  · rintro ⟨text, htext⟩
    induction text generalizing bytes with
    | nil =>
      obtain rfl := Option.some.inj htext
      exact ⟨[], rfl, List.forall_mem_nil _⟩
    | cons c text ih =>
      obtain ⟨front, back, hfront, hback, rfl⟩ := bytesOf?_cons_eq_some.mp htext
      obtain ⟨parts, rfl, hparts⟩ := ih hback
      exact ⟨front :: parts, rfl, List.forall_mem_cons.mpr ⟨⟨c, hfront⟩, hparts⟩⟩
  · rintro ⟨parts, rfl, hparts⟩
    induction parts with
    | nil => exact ⟨[], rfl⟩
    | cons part parts ih =>
      obtain ⟨⟨c, hc⟩, hparts⟩ := List.forall_mem_cons.mp hparts
      obtain ⟨text, htext⟩ := ih hparts
      exact ⟨c :: text, bytesOf?_cons_eq_some.mpr ⟨_, _, hc, htext, rfl⟩⟩

/-- An encoder writes the bytes of its characters. -/
theorem Encoder.writeAll_eq_ok {position : Nat} {done : List UInt8} {text : List Char}
    {bytes : List UInt8} :
    (mk bytes?).writeAll position done text = .ok bytes ↔
      ∃ more, bytesOf? bytes? text = some more ∧ done.reverse ++ more = bytes := by
  induction text generalizing position done with
  | nil => simp [writeAll, bytesOf?]
  | cons c text ih =>
    cases hc : bytes? c with
    | none => simp [writeAll, bytesOf?, hc]
    | some front =>
      have hwrites : (mk bytes?).writeAll position done (c :: text) =
          (mk bytes?).writeAll (position + 1) (front.reverse ++ done) text := by
        simp [writeAll, hc]
      rw [hwrites, ih, bytesOf?, hc]
      cases bytesOf? bytes? text <;> simp

theorem Encoder.encode_eq_ok {text : List Char} {bytes : List UInt8} :
    (mk bytes?).encode text = .ok bytes ↔ bytesOf? bytes? text = some bytes := by
  refine writeAll_eq_ok.trans ?_
  simp

end

/-- Whether reading and writing undo each other, one character at a time. -/
structure Inverse (read : UInt8 → List UInt8 → Reading) (bytes? : Char → Option (List UInt8)) :
    Prop where
  /-- The bytes of a character are read as the character, whatever stands behind them. -/
  reads : ∀ {c bytes}, bytes? c = some bytes → ∃ lead trail, bytes = lead :: trail ∧
    ∀ rest, read lead (trail ++ rest) = .char c trail.length
  /-- The bytes that have been read are those of the character. -/
  writes : ∀ {lead rest c more}, read lead rest = .char c more →
    bytes? c = some (lead :: rest.take more)

namespace Inverse

variable {read : UInt8 → List UInt8 → Reading} {bytes? : Char → Option (List UInt8)}

theorem eq_nil_of_bytesOf? (h : Inverse read bytes?) {text : List Char}
    (htext : bytesOf? bytes? text = some []) : text = [] := by
  cases text with
  | nil => rfl
  | cons c text =>
    obtain ⟨front, back, hfront, -, happend⟩ := bytesOf?_cons_eq_some.mp htext
    obtain ⟨lead, trail, rfl, -⟩ := h.reads hfront
    cases happend

/-- The first character of a written text is read first. -/
theorem read_of_bytesOf? (h : Inverse read bytes?) {text : List Char} {byte : UInt8}
    {rest : List UInt8} (htext : bytesOf? bytes? text = some (byte :: rest)) :
    ∃ c more n, text = c :: more ∧ read byte rest = .char c n ∧
      bytesOf? bytes? more = some (rest.drop n) := by
  cases text with
  | nil => cases htext
  | cons c text =>
    obtain ⟨front, back, hfront, hback, happend⟩ := bytesOf?_cons_eq_some.mp htext
    obtain ⟨lead, trail, rfl, hread⟩ := h.reads hfront
    rw [List.cons_append] at happend
    obtain ⟨rfl, rfl⟩ := List.cons.inj happend
    exact ⟨c, text, trail.length, rfl, hread back, by rw [List.drop_left, hback]⟩

theorem readAll_eq_ok (h : Inverse read bytes?) {position : Nat} {done text : List Char}
    {bytes : List UInt8} :
    (Decoder.mk read).readAll position done bytes = .ok text ↔
      ∃ more, bytesOf? bytes? more = some bytes ∧ done.reverse ++ more = text := by
  fun_induction Decoder.readAll (Decoder.mk read) position done bytes with
  | case1 position done =>
    constructor
    · intro hdone
      exact ⟨[], rfl, (List.append_nil _).trans (Except.ok.inj hdone)⟩
    · rintro ⟨more, hmore, rfl⟩
      rw [h.eq_nil_of_bytesOf? hmore, List.append_nil]
  | case2 position done byte rest c n hread ih =>
    have hc := h.writes hread
    have hih : (Decoder.mk read).readAll (position + 1 + n) (c :: done) (rest.drop n) = .ok text ↔
        ∃ more, bytesOf? bytes? more = some (rest.drop n) ∧ done.reverse ++ c :: more = text := by
      simpa using ih
    refine hih.trans ⟨?_, ?_⟩
    · rintro ⟨more, hmore, rfl⟩
      refine ⟨c :: more, bytesOf?_cons_eq_some.mpr ⟨_, _, hc, hmore, ?_⟩, rfl⟩
      rw [List.cons_append, List.take_append_drop]
    · rintro ⟨text, htext, rfl⟩
      obtain ⟨c', more, n', rfl, hread', hmore⟩ := h.read_of_bytesOf? htext
      cases hread.symm.trans hread'
      exact ⟨more, hmore, rfl⟩
  | case3 position done byte rest reason n hread =>
    refine iff_of_false nofun ?_
    rintro ⟨text, htext, -⟩
    obtain ⟨c, more, n', -, hread', -⟩ := h.read_of_bytesOf? htext
    cases hread.symm.trans hread'

/-- Some bytes are read as a text just if the text is written as these bytes. -/
theorem decode_eq_ok (h : Inverse read bytes?) {text : List Char} {bytes : List UInt8} :
    (Decoder.mk read).decode bytes = .ok text ↔ bytesOf? bytes? text = some bytes := by
  refine h.readAll_eq_ok.trans ?_
  simp

end Inverse

/-! ### Characters that are the numbers of their bytes -/

namespace Charset

variable {limit : Nat}

theorem toNat_ofNat_of_isValidChar {n : Nat} (h : n.isValidChar) : (Char.ofNat n).toNat = n := by
  rw [Char.ofNat, dif_pos h]
  rfl

theorem charBelow_eq_some (hlimit : limit ≤ 256) {byte : UInt8} {c : Char} :
    charBelow limit byte = some c ↔ byte.toNat < limit ∧ c.toNat = byte.toNat := by
  unfold charBelow
  by_cases hbyte : byte.toNat < limit
  · have hvalid : byte.toNat.isValidChar := .inl (by omega)
    rw [if_pos hbyte, Option.some.injEq, ← Char.toNat_inj, toNat_ofNat_of_isValidChar hvalid]
    exact ⟨fun h => ⟨hbyte, h.symm⟩, fun h => h.2.symm⟩
  · rw [if_neg hbyte]
    exact iff_of_false nofun fun h => hbyte h.1

theorem byteBelow_eq_some (hlimit : limit ≤ 256) {c : Char} {bytes : List UInt8} :
    byteBelow limit c = some bytes ↔
      ∃ byte : UInt8, bytes = [byte] ∧ byte.toNat < limit ∧ c.toNat = byte.toNat := by
  unfold byteBelow
  by_cases hc : c.toNat < limit
  · have hnat : (UInt8.ofNat c.toNat).toNat = c.toNat := by
      rw [UInt8.toNat_ofNat', Nat.mod_eq_of_lt (by omega)]
    rw [if_pos hc, Option.some.injEq]
    constructor
    · rintro rfl
      exact ⟨_, rfl, hnat.symm ▸ hc, hnat.symm⟩
    · rintro ⟨byte, rfl, -, hbyte⟩
      rw [hbyte, UInt8.ofNat_toNat]
  · rw [if_neg hc]
    refine iff_of_false nofun ?_
    rintro ⟨byte, -, hbyte, hnat⟩
    exact hc (hnat ▸ hbyte)

theorem inverse_below (hlimit : limit ≤ 256) (reason : CodingFault) :
    Inverse (Decoder.ofByte (charBelow limit) reason).read (byteBelow limit) where
  reads {c bytes} h := by
    obtain ⟨byte, rfl, hbyte⟩ := (byteBelow_eq_some hlimit).mp h
    refine ⟨byte, [], rfl, fun rest => ?_⟩
    simp only [Decoder.ofByte, (charBelow_eq_some hlimit).mpr hbyte, List.length_nil]
  writes {byte rest c more} h := by
    cases hchar : charBelow limit byte with
    | none => simp [Decoder.ofByte, hchar] at h
    | some d =>
      simp only [Decoder.ofByte, hchar, Reading.char.injEq] at h
      obtain ⟨rfl, rfl⟩ := h
      exact (byteBelow_eq_some hlimit).mpr ⟨byte, rfl, (charBelow_eq_some hlimit).mp hchar⟩

/-- The bytes of texts are those below the limit. -/
theorem exists_bytesOf?_below (hlimit : limit ≤ 256) {bytes : List UInt8} :
    (∃ text, bytesOf? (byteBelow limit) text = some bytes) ↔ ∀ byte ∈ bytes, byte.toNat < limit := by
  rw [exists_bytesOf?]
  constructor
  · rintro ⟨parts, rfl, hparts⟩ byte hbyte
    obtain ⟨part, hpart, hmem⟩ := List.mem_flatten.mp hbyte
    obtain ⟨c, hc⟩ := hparts part hpart
    obtain ⟨byte', rfl, hlt, -⟩ := (byteBelow_eq_some hlimit).mp hc
    rwa [List.mem_singleton.mp hmem]
  · intro hbytes
    refine ⟨bytes.map fun byte => [byte], List.flatMap_singleton' bytes, fun part hpart => ?_⟩
    obtain ⟨byte, hbyte, rfl⟩ := List.mem_map.mp hpart
    have hchar := (charBelow_eq_some hlimit).mp (if_pos (hbytes byte hbyte))
    exact ⟨_, (byteBelow_eq_some hlimit).mpr ⟨byte, rfl, hchar⟩⟩

theorem isSome_byteBelow {c : Char} : (byteBelow limit c).isSome ↔ c.toNat < limit := by
  unfold byteBelow
  split <;> simp [*]

end Charset
end EcmaPress
