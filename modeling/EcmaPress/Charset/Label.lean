import EcmaPress.Charset
import EcmaPress.Text.CharClass

/-!
# Labels of character sets

The names under which a character set can be asked for, in any case and with blanks around
them, and the character set that a locale asks for. Sets that can only be read have no label.
-/

namespace EcmaPress

/-- A label that asks for no character set. -/
structure UnknownCharset where
  label : String
deriving DecidableEq, Repr

/-- The message about an unknown label. -/
def UnknownCharset.message (e : UnknownCharset) : String :=
  s!"unknown encoding: {e.label}"

/-- Every legacy set. -/
def LegacyCharset.all : List LegacyCharset :=
  SingleByte.all.map .singleByte ++
    [.userDefined, .shiftJis, .eucJp, .iso2022Jp, .gbk, .gb18030, .big5, .eucKr]

/-- The labels that a legacy set goes by, in small letters. -/
def LegacyCharset.labels : LegacyCharset → List String
  | .singleByte set => set.labels
  | .userDefined => ["x-user-defined"]
  | .shiftJis => ["csshiftjis", "ms932", "ms_kanji", "shift-jis", "shift_jis", "sjis",
      "windows-31j", "x-sjis"]
  | .eucJp => ["cseucpkdfmtjapanese", "euc-jp", "x-euc-jp"]
  | .iso2022Jp => ["csiso2022jp", "iso-2022-jp"]
  | .gbk => ["chinese", "csgb2312", "csiso58gb231280", "gb2312", "gb_2312", "gb_2312-80", "gbk",
      "iso-ir-58", "x-gbk"]
  | .gb18030 => ["gb18030"]
  | .big5 => ["big5", "big5-hkscs", "cn-big5", "csbig5", "x-x-big5"]
  | .eucKr => ["cseuckr", "csksc56011987", "euc-kr", "iso-ir-149", "korean", "ks_c_5601-1987",
      "ks_c_5601-1989", "ksc5601", "ksc_5601", "windows-949"]

namespace Charset

/-- Every character set. -/
def all : List Charset :=
  [.utf8, .ascii, .latin1] ++ LegacyCharset.all.map .legacy

/-- The usual names of the three sets that most sources are in. They have a hyphen where the
label may have an underscore. -/
def usualNames : List (Charset × List String) := [
  (.utf8, ["utf-8", "utf8", "u8", "utf"]),
  (.ascii, ["ascii", "us-ascii", "646", "ansi-x3.4-1968"]),
  (.latin1, ["latin-1", "latin1", "iso-8859-1", "iso8859-1", "8859", "cp819", "l1"])]

/-- The labels that are registered for a set, in small letters. What is registered for the
first sets of 256 characters belongs to the set that extends them. -/
def labels : Charset → List String
  | .utf8 => ["unicode-1-1-utf-8", "unicode11utf8", "unicode20utf8", "utf-8", "utf8",
      "x-unicode20utf8"]
  | .ascii | .latin1 => []
  | .legacy set => set.labels

/-- The set that a label is registered for. -/
def registered? (label : String) : Option Charset :=
  all.find? fun charset => charset.labels.contains label

/-- The set with a usual name. -/
def usual? (label : String) : Option Charset :=
  (usualNames.find? fun (_, names) => names.contains label).map Prod.fst

/-- The character set that a label asks for. A usual name counts first, then the label as it
is registered, then the label with hyphens for underscores. -/
def ofLabel? (label : String) : Option Charset :=
  let lower := ((trimWhiteSpace label.toList).map Char.toLower)
  let hyphened := String.ofList (lower.map fun c => if c = '_' then '-' else c)
  usual? hyphened <|> registered? (String.ofList lower) <|> registered? hyphened

/-- The character set of a locale, which follows the first dot and ends before an at sign. -/
def ofLocale? (locale : String) : Option Charset :=
  match locale.toList.dropWhile (· ≠ '.') with
  | [] => none
  | _ :: codeset => ofLabel? (String.ofList (codeset.takeWhile (· ≠ '@')))

/-- The character set that the environment prefers: that of the first variable of three which
is set and not empty. -/
def preferred (lookup : String → Option String) : Charset :=
  let locale := (["LC_ALL", "LC_CTYPE", "LANG"].filterMap lookup).find? (· ≠ "")
  (locale.bind ofLocale?).getD .utf8

end Charset
end EcmaPress
