import Mython.Folder
import Mython.Session

namespace Mython.CommandLine

/-- How the command ends, with all that it writes. -/
structure Exit where
  code : UInt32
  stdout : String
  stderr : String

/-- An end with a message and nothing else. -/
def Exit.failing (code : UInt32) (message : String) : Exit := ⟨code, "", message ++ "\n"⟩

/-- The input that arguments name: a file, or standard input if there are none. -/
def input? : List String → Option (Option String)
  | [] => some none
  | [path] => some (some path)
  | _ => none

/-- The program in a run of bytes. -/
def decode (bytes : ByteArray) : Except ReadError String :=
  match String.fromUTF8? bytes with
  | some source => .ok source
  | none => .error .notUtf8

/-- The characters with the Unicode property `White_Space`. -/
def isWhiteSpace (c : Char) : Bool :=
  (0x09 ≤ c.toNat && c.toNat ≤ 0x0d) || (0x2000 ≤ c.toNat && c.toNat ≤ 0x200a) ||
    [0x20, 0x85, 0xa0, 0x1680, 0x2028, 0x2029, 0x202f, 0x205f, 0x3000].contains c.toNat

/-- A text without the white space at its two ends. -/
def trim (s : String) : String :=
  String.ofList ((s.toList.dropWhile isWhiteSpace).reverse.dropWhile isWhiteSpace).reverse

/-- The limit on the depth of calls that a setting asks for. One that is no count is ignored. -/
def limit (setting : Option String) : Nat :=
  (setting.bind fun s => Decimal.readCount? (trim s)).getD defaultDepth

/-- Bytes that are kept back before anything is written out. -/
def bufferSize : Nat := 8192

/-- The sink in front of an output that is full. -/
def fullSink : Sink where
  capacity := .buffer bufferSize bufferSize
  refusal := "No space left on device (os error 28)"
  written := #[]

/-- Runs a program. Output that cannot be written counts for more than a fault. -/
def run (source : String) (limit : Nat) (sink : Sink) : Exit :=
  match parse source with
  | .error e => .failing 65 e.text
  | .ok p =>
    let (result, m) := (Machine.start sink).execute limit p
    match m.sink.flush, result with
    | .error message, _ => .failing 1 ("mython: cannot write output: " ++ message)
    | .ok stdout, .ok () => ⟨0, stdout, ""⟩
    | .ok stdout, .error (.fault f) => ⟨70, stdout, f.text ++ "\n"⟩
    | .ok stdout, .error .exhausted => ⟨70, stdout, "mython: out of fuel\n"⟩

/-- The whole command, given how to read a file or standard input. -/
def respond (args : List String) (read : Option String → Except ReadError ByteArray)
    (setting : Option String) (sink : Sink) : Exit :=
  match input? args with
  | none => .failing 64 "usage: mython [FILE]"
  | some path =>
    match read path >>= decode with
    | .error e =>
      .failing 1 ("mython: cannot read " ++ path.getD "<stdin>" ++ ": " ++ e.message)
    | .ok source => run source (limit setting) sink

end Mython.CommandLine
