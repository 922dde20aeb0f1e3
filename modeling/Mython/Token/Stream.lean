import Mython.Token.Scanner

namespace Mython

/-- The tokens of a text, and the error that follows them if there is no `eof` among them. -/
structure TokenStream where
  tokens : List Token
  fault : Option SyntaxError

namespace TokenStream

/-- The tokens that at most `n` requests to a scanner give. -/
def ofScanner : Nat → Scanner → TokenStream
  | 0, s => ⟨[], some ⟨.unfinished, s.pos⟩⟩
  | n + 1, s =>
    match s.next with
    | (.error e, _) => ⟨[], some e⟩
    | (.ok t, s) =>
      if t.kind = .eof then ⟨[t], none⟩
      else
        let rest := ofScanner n s
        ⟨t :: rest.tokens, rest.fault⟩

/-- The stream of a text. Two requests more than there are bytes reach its end. -/
def ofSource (source : String) : TokenStream :=
  let s := Scanner.ofSource source
  ofScanner (s.rest.length + 2) s

end TokenStream

/-- The tokens of a text up to and with its first `eof`, or the first error before that. -/
def tokenize (source : String) : Except SyntaxError (List Token) :=
  let stream := TokenStream.ofSource source
  match stream.fault with
  | some e => .error e
  | none => .ok stream.tokens

end Mython
