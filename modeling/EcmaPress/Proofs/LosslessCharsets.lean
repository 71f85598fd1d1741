import EcmaPress.Proofs.WellFormedUtf8

/-!
# Character sets that lose nothing

What is read from a set without loss can be written back as the bytes it was read from, and what is
written can be read back as the same text. Both ways fail just where the bytes or the characters
have no counterpart.
-/

namespace EcmaPress
namespace Charset

theorem exists_error_iff {ε α : Type} {result : Except ε α} :
    (∃ e, result = .error e) ↔ ¬ ∃ a, result = .ok a := by
  cases result <;> simp

variable [LegacyCoding]

/-- Whether a set reads and writes without loss: each of the two undoes the other, well-formed
bytes are read, and texts of characters within the range are written. -/
structure Lossless (charset : Charset) (WellFormed : List UInt8 → Prop) (InRange : Char → Prop) :
    Prop where
  inverse : ∀ bytes text, charset.decode bytes = .ok text ↔ charset.encode text = .ok bytes
  unreadable : ∀ bytes, (∃ e, charset.decode bytes = .error e) ↔ ¬ WellFormed bytes
  unwritable : ∀ text, (∃ e, charset.encode text = .error e) ↔ ∃ c ∈ text.toList, ¬ InRange c

theorem decode_eq_ok {charset : Charset} {bytes : List UInt8} {text : String} :
    charset.decode bytes = .ok text ↔ charset.read bytes = .ok text.toList := by
  unfold decode
  cases charset.read bytes with
  | ok read =>
    simp only [Except.ok.injEq]
    exact ⟨fun h => by rw [← h, String.toList_ofList], fun h => by rw [h, String.ofList_toList]⟩
  | error fault => exact iff_of_false nofun nofun

theorem encode_eq_ok {charset : Charset} {text : String} {bytes : List UInt8} :
    charset.encode text = .ok bytes ↔ charset.write text.toList = .ok bytes := by
  unfold encode
  cases charset.write text.toList with
  | ok written => simp only [Except.ok.injEq]
  | error fault => exact iff_of_false nofun nofun

/-- A set is lossless if its reading undoes its writing one character at a time. -/
theorem lossless_of_inverse {charset : Charset} {read : UInt8 → List UInt8 → Reading}
    {bytes? : Char → Option (List UInt8)} (h : Inverse read bytes?)
    (hread : charset.read = (Decoder.mk read).decode)
    (hwrite : charset.write = (Encoder.mk bytes?).encode) {WellFormed : List UInt8 → Prop}
    (hwellFormed : ∀ {bytes}, (∃ text, bytesOf? bytes? text = some bytes) ↔ WellFormed bytes)
    {InRange : Char → Prop} (hinRange : ∀ {c}, (bytes? c).isSome ↔ InRange c) :
    Lossless charset WellFormed InRange := by
  have hdecode {bytes : List UInt8} {text : String} :
      charset.decode bytes = .ok text ↔ bytesOf? bytes? text.toList = some bytes := by
    rw [decode_eq_ok, hread, h.decode_eq_ok]
  have hencode {bytes : List UInt8} {text : String} :
      charset.encode text = .ok bytes ↔ bytesOf? bytes? text.toList = some bytes := by
    rw [encode_eq_ok, hwrite, Encoder.encode_eq_ok]
  refine ⟨fun bytes text => hdecode.trans hencode.symm, fun bytes => ?_, fun text => ?_⟩
  · rw [exists_error_iff, ← hwellFormed]
    simp only [hdecode]
    refine not_congr ⟨fun ⟨text, htext⟩ => ⟨text.toList, htext⟩, fun ⟨text, htext⟩ => ?_⟩
    exact ⟨String.ofList text, by rwa [String.toList_ofList]⟩
  · rw [exists_error_iff]
    simp only [hencode, ← Option.isSome_iff_exists, isSome_bytesOf?, hinRange]
    simp

/-- UTF-8, ASCII and Latin-1 lose nothing. UTF-8 reads what is made up of sequences of characters
and writes every text. ASCII reads bytes and writes characters below 128. Latin-1 reads all bytes
and writes the characters below 256. -/
theorem lossless :
    Lossless .utf8 Utf8.WellFormed (fun _ => True) ∧
      Lossless .ascii (fun bytes => ∀ byte ∈ bytes, byte.toNat < 0x80) (fun c => c.toNat < 0x80) ∧
      Lossless .latin1 (fun _ => True) (fun c => c.toNat < 0x100) := by
  refine ⟨?_, ?_, ?_⟩
  · exact lossless_of_inverse Utf8.inverse rfl rfl Utf8.exists_bytesOf?_iff (by simp)
  · exact lossless_of_inverse (inverse_below (by decide) (.ordinal 128)) rfl rfl
      (exists_bytesOf?_below (by decide)) isSome_byteBelow
  · refine lossless_of_inverse (inverse_below (by decide) (.ordinal 256)) rfl rfl ?_ isSome_byteBelow
    intro bytes
    rw [exists_bytesOf?_below (by decide)]
    exact iff_true_intro fun byte _ => byte.toNat_lt

end Charset
end EcmaPress
