/-
TOML documents: lines that name a table or give a value to a key. Brackets that are open carry a line
over its end, so a document is cut into its lines, and a list or a table in braces into its parts,
at the separators that no bracket encloses.
-/
import Eligibility.Settings.Address
import Eligibility.Settings.Toml.Lexeme
import Eligibility.Settings.Toml.Scalar
import Eligibility.Settings.Toml.Table

namespace Eligibility.Toml

/-! ## Lexemes and what separates them -/

namespace Lexeme

/-- Whether a lexeme is space or a comment. -/
def isBlank : Lexeme → Bool
  | blank _ => true
  | _ => false

/-- Whether a lexeme is space, a comment or a line end. -/
def isGap (x : Lexeme) : Bool := x.isBlank || x = lineEnd

/-- The characters of a lexeme that may be part of a value without quotes. -/
def chars? : Lexeme → Option (List Char)
  | word cs => some cs
  | dot => some ['.']
  | blank cs => some cs
  | _ => none

/-- The number of open brackets after a lexeme, from that before it. -/
def depthAfter (depth : Nat) : Lexeme → Nat
  | openList | openTable => depth + 1
  | closeList | closeTable => depth - 1
  | _ => depth

end Lexeme

/-- Lexemes without those of a kind at either end. -/
def trimmed (p : Lexeme → Bool) (xs : List Lexeme) : List Lexeme :=
  ((xs.dropWhile p).reverse.dropWhile p).reverse

/-- The parts of some lexemes between the separators that no bracket encloses. -/
def partsAt (separator : Lexeme) : Nat → List Lexeme → List (List Lexeme)
  | _, [] => [[]]
  | depth, x :: xs =>
    if depth = 0 ∧ x = separator then [] :: partsAt separator 0 xs
    else (partsAt separator (x.depthAfter depth) xs).modifyHead (x :: ·)

/-- The parts between commas, of which one may follow the last part. -/
def elements (xs : List Lexeme) : List (List Lexeme) :=
  let parts := (partsAt .comma 0 xs).map (trimmed Lexeme.isGap)
  if parts.getLast? = some [] then parts.dropLast else parts

/-- The lexemes before a closing bracket at the end. -/
def before? (closing : Lexeme) (xs : List Lexeme) : Option (List Lexeme) :=
  if xs.getLast? = some closing then some xs.dropLast else none

/-! ## Keys and values -/

/-- How deep keys, lists and tables in braces may be nested. -/
def nestingLimit : Nat := 80

/-- One part of a key. -/
def keyPart? : List Lexeme → Option String
  | [.word cs] => Address.bareKey? cs
  | [.text cs false] => some (String.ofList cs)
  | _ => none

/-- The parts of a key. -/
def key? (xs : List Lexeme) : Option (List String) :=
  let parts := partsAt .dot 0 xs
  if nestingLimit < parts.length then none else parts.mapM fun part => keyPart? (trimmed Lexeme.isBlank part)

/-- A key and the lexemes of its value. -/
def assignment? (xs : List Lexeme) : Option (List String × List Lexeme) :=
  match xs.dropWhile (· ≠ .equals) with
  | [] => none
  | _ :: rest => (key? (xs.takeWhile (· ≠ .equals))).map (·, rest)

/-- The value that lexemes stand for, in which so many brackets may be open at once. -/
def value? : Nat → List Lexeme → Option Setting
  | room, xs =>
    match trimmed Lexeme.isBlank xs, room with
    | [.text cs _], _ => some (.text (String.ofList cs))
    | .openList :: rest, room + 1 => do
      let inner ← before? .closeList rest
      let items ← (elements inner).mapM (value? room)
      return .list items
    | .openTable :: rest, room + 1 => do
      let inner ← before? .closeTable rest
      let entries ← (elements inner).foldlM (fun es part => do
        let (path, rest) ← assignment? part
        insert (← value? room rest) path es) []
      return .table (settingsOf entries)
    | xs, _ => do
      let cs ← xs.mapM Lexeme.chars?
      scalar? cs.flatten

/-! ## Documents -/

/-- A document that has been read up to some line: its entries and the header that is in force. -/
structure Reading where
  entries : Record Item
  header : List String

/-- Reads one more line. -/
def readLine (r : Reading) (line : List Lexeme) : Option Reading :=
  match trimmed Lexeme.isBlank line with
  | [] => some r
  | .openList :: .openList :: rest => do
    let path ← key? (← before? .closeList (← before? .closeList rest))
    return ⟨← openSeries path r.entries, path⟩
  | .openList :: rest => do
    let path ← key? (← before? .closeList rest)
    return ⟨← openTable path r.entries, path⟩
  | xs => do
    let (path, rest) ← assignment? xs
    let v ← value? nestingLimit rest
    return { r with entries := ← under (insert v path) r.header r.entries }

/-- The entries of a document, unless a line is malformed. Byte order marks in front do not count. -/
def read? (text : String) : Option (Record Setting) := do
  let xs ← lexemes (text.toList.dropWhile (· = '\ufeff'))
  let r ← (partsAt .lineEnd 0 xs).foldlM readLine ⟨[], []⟩
  return settingsOf r.entries

end Eligibility.Toml
