import JsonSelect.Json.Lexeme
import JsonSelect.Json.Literal
import JsonSelect.Json.Object

/-!
# JSON as written

The syntax tree of a JSON text, before its numbers are read: literals stand as they are written,
and an object lists its members with repeated keys. `Written.ofChars?` builds it from the lexemes
with a stack of open containers. `Written.ofLooseChars?` does so too, and passes over the tail of
a word, the characters behind its value, if that value is a wide number or the tail begins with a
NUL. `Written.depth` is the number of containers nested in each other, and `Written.value?` the JSON
value, given how literals are read: a repeated key keeps its first place and takes its last value.
-/

namespace JsonSelect.Json

inductive Written where
  | null
  | bool (value : Bool)
  | num (literal : Literal)
  | str (text : String)
  | arr (items : List Written)
  | obj (members : List (String × Written))
  deriving Inhabited

namespace Written

/-- The value at the front of a word, and the word's tail. -/
def takeWord? : List Char → Option (Written × List Char)
  | 'n' :: 'u' :: 'l' :: 'l' :: tail => some (null, tail)
  | 't' :: 'r' :: 'u' :: 'e' :: tail => some (bool true, tail)
  | 'f' :: 'a' :: 'l' :: 's' :: 'e' :: tail => some (bool false, tail)
  | cs => (Literal.take? cs).map fun (literal, tail) => (num literal, tail)

/-- The value of a word without a tail. -/
def ofWord? (cs : List Char) : Option Written := do
  let (w, tail) ← takeWord? cs
  if tail.isEmpty then some w else none

/-- Whether the value is a wide number. -/
def isWide : Written → Bool
  | num literal => literal.isWide
  | _ => false

/-- The value of a word whose tail, if it has one, stands behind a wide number or begins with a
NUL. -/
def ofLooseWord? (cs : List Char) : Option Written := do
  let (w, tail) ← takeWord? cs
  if w.isWide || tail.head?.all (· == '\x00') then some w else none

/-- An open container: what is done of it in reverse, and in an object the key whose value is being
read. -/
inductive Level where
  | items (done : List Written)
  | members (done : List (String × Written)) (key : String)

/-- What may follow: a value (or the end of the array just opened), a key (or the end of the object
just opened), a colon, or what comes after a value. -/
inductive Phase where
  | value (closable : Bool)
  | key (done : List (String × Written)) (closable : Bool)
  | colon (done : List (String × Written)) (key : String)
  | after (value : Written)

structure Progress where
  levels : List Level
  phase : Phase

/-- Takes a lexeme into the tree, with words read by `word`. -/
def step (word : List Char → Option Written) (p : Progress) (l : Lexeme) : Option Progress :=
  match p.phase, l with
  | .value _, .openArray => some ⟨.items [] :: p.levels, .value true⟩
  | .value _, .openObject => some ⟨p.levels, .key [] true⟩
  | .value _, .str text => some ⟨p.levels, .after (str text)⟩
  | .value _, .word cs => (word cs).map fun v => ⟨p.levels, .after v⟩
  | .value true, .closeArray =>
    match p.levels with
    | .items done :: levels => some ⟨levels, .after (arr done.reverse)⟩
    | _ => none
  | .key done _, .str key => some ⟨p.levels, .colon done key⟩
  | .key done true, .closeObject => some ⟨p.levels, .after (obj done.reverse)⟩
  | .colon done key, .colon => some ⟨.members done key :: p.levels, .value false⟩
  | .after v, .comma =>
    match p.levels with
    | .items done :: levels => some ⟨.items (v :: done) :: levels, .value false⟩
    | .members done key :: levels => some ⟨levels, .key ((key, v) :: done) false⟩
    | [] => none
  | .after v, .closeArray =>
    match p.levels with
    | .items done :: levels => some ⟨levels, .after (arr (v :: done).reverse)⟩
    | _ => none
  | .after v, .closeObject =>
    match p.levels with
    | .members done key :: levels => some ⟨levels, .after (obj ((key, v) :: done).reverse)⟩
    | _ => none
  | _, _ => none

def finish? (p : Progress) : Option Written :=
  match p with
  | ⟨[], .after v⟩ => some v
  | _ => none

/-- The tree of a text, with words read by `word`. -/
def ofLexemes? (word : List Char → Option Written) (ls : List Lexeme) : Option Written := do
  finish? (← ls.foldlM (step word) ⟨[], .value false⟩)

def ofChars? (cs : List Char) : Option Written := do ofLexemes? ofWord? (← Lexeme.ofChars? cs)

/-- The tree of a text in which words may have tails. -/
def ofLooseChars? (cs : List Char) : Option Written := do
  ofLexemes? ofLooseWord? (← Lexeme.ofChars? cs)

mutual

def depth : Written → Nat
  | arr items => itemsDepth items + 1
  | obj members => membersDepth members + 1
  | _ => 0

def itemsDepth : List Written → Nat
  | [] => 0
  | item :: items => max (depth item) (itemsDepth items)

def membersDepth : List (String × Written) → Nat
  | [] => 0
  | (_, value) :: members => max (depth value) (membersDepth members)

end

mutual

/-- The value, with its literals read by `number`. -/
def value? (number : Literal → Option Number) : Written → Option Json
  | null => some .null
  | bool b => some (.bool b)
  | num literal => (number literal).map .num
  | str text => some (.str text)
  | arr items => (itemValues? number items).map .arr
  | obj members => (memberValues? number [] members).map .obj

def itemValues? (number : Literal → Option Number) : List Written → Option (List Json)
  | [] => some []
  | item :: items => do
    let v ← value? number item
    return v :: (← itemValues? number items)

/-- The members put into an object one after the other. -/
def memberValues? (number : Literal → Option Number) (done : Object) :
    List (String × Written) → Option Object
  | [] => some done
  | (key, value) :: members => do
    let v ← value? number value
    memberValues? number (done.insert key v) members

end

end Written

end JsonSelect.Json
