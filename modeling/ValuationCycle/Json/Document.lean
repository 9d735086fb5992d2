import ValuationCycle.Json.Token

/-!
# Documents

A document is what a well-formed text says before anything is decided about
numbers, repeated members or depth. Its tokens are built up again by a machine
that reads one token at a time and keeps the unfinished arrays and objects on a
stack, so a document may nest as deep as its text does. `Document.parse?` reads
a text and `Document.text` writes one without blanks.
-/
namespace ValuationCycle.Json

/-- A document; strings and names without content come from unpaired halves. -/
inductive Document where
  | null
  | bool (value : Bool)
  | number (value : Numeral)
  | string (content : Option String)
  | array (items : List Document)
  | object (members : List (Option String × Document))

namespace Document

/-- A string with content. -/
def str (s : String) : Document := string (some s)

def int (n : Int) : Document := number (.ofInt n)

def record (members : List (String × Document)) : Document :=
  object (members.map fun (name, content) => (some name, content))

/-- The items of a list written one after the other with commas between them. -/
def separated : List (List Token) → List Token
  | [] => []
  | [ts] => ts
  | ts :: rest => ts ++ Token.comma :: separated rest

mutual
def tokens : Document → List Token
  | null => [.null]
  | bool b => [.bool b]
  | number n => [.number n]
  | string s => [.string s]
  | array items => .openArray :: separated (tokensOfItems items) ++ [.closeArray]
  | object members => .openObject :: separated (tokensOfMembers members) ++ [.closeObject]

def tokensOfItems : List Document → List (List Token)
  | [] => []
  | item :: rest => tokens item :: tokensOfItems rest

def tokensOfMembers : List (Option String × Document) → List (List Token)
  | [] => []
  | (name, content) :: rest =>
    (.string name :: .colon :: tokens content) :: tokensOfMembers rest
end

def text (d : Document) : String := String.ofList (d.tokens.flatMap Token.chars)

end Document

/-- An array or object whose end has not been read, its latest part first. An
object's frame also holds the name whose content is being read. -/
inductive Frame where
  | array (items : List Document)
  | object (members : List (Option String × Document)) (name : Option String)

/-- What has been read of the innermost unfinished part. -/
inductive Awaiting where
  /-- A value is due, or, right after an opening bracket, the closing one. -/
  | value (first : Bool)
  /-- A name is due, or, right after an opening brace, the closing one. -/
  | name (members : List (Option String × Document)) (first : Bool)
  /-- The colon after a name is due. -/
  | colon (members : List (Option String × Document)) (name : Option String)
  /-- A value is complete. -/
  | follow (document : Document)

structure Reading where
  awaiting : Awaiting
  frames : List Frame

namespace Reading

def start : Reading := ⟨.value false, []⟩

/-- A value that is a single token, or none for the other tokens. -/
def scalar? : Token → Option Document
  | .null => some .null
  | .bool b => some (.bool b)
  | .number n => some (.number n)
  | .string s => some (.string s)
  | _ => none

def stepValue (first : Bool) (frames : List Frame) : Token → Option Reading
  | .openArray => some ⟨.value true, .array [] :: frames⟩
  | .openObject => some ⟨.name [] true, frames⟩
  | .closeArray =>
    match first, frames with
    | true, .array [] :: frames => some ⟨.follow (.array []), frames⟩
    | _, _ => none
  | t => (scalar? t).map fun d => ⟨.follow d, frames⟩

def stepFollow (d : Document) : List Frame → Token → Option Reading
  | .array items :: frames, .comma => some ⟨.value false, .array (d :: items) :: frames⟩
  | .array items :: frames, .closeArray => some ⟨.follow (.array (d :: items).reverse), frames⟩
  | .object members name :: frames, .comma => some ⟨.name ((name, d) :: members) false, frames⟩
  | .object members name :: frames, .closeObject =>
    some ⟨.follow (.object ((name, d) :: members).reverse), frames⟩
  | _, _ => none

/-- Reads one token; none if it may not stand here. -/
def step (r : Reading) (t : Token) : Option Reading :=
  match r.awaiting with
  | .value first => stepValue first r.frames t
  | .name members first =>
    match t, first with
    | .string name, _ => some ⟨.colon members name, r.frames⟩
    | .closeObject, true => some ⟨.follow (.object []), r.frames⟩
    | _, _ => none
  | .colon members name =>
    match t with
    | .colon => some ⟨.value false, .object members name :: r.frames⟩
    | _ => none
  | .follow d => stepFollow d r.frames t

def finish? (r : Reading) : Option Document :=
  match r.awaiting, r.frames with
  | .follow d, [] => some d
  | _, _ => none

end Reading

namespace Document

def ofTokens? (ts : List Token) : Option Document :=
  (ts.foldlM Reading.step Reading.start).bind Reading.finish?

def parse? (s : String) : Option Document := (Token.lex? s.toList).bind ofTokens?

end Document
end ValuationCycle.Json
