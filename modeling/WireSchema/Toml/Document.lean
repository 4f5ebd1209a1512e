import WireSchema.Toml.Parser
set_option autoImplicit false

/-!
The tables that statements describe. A table may have one header and no key may be given twice; a
table that exists only because something stands inside of it can still get its header. A list takes
the place of such a table.
-/

namespace WireSchema.Toml

inductive Node where
  | text (t : Text)
  | bool (b : Bool)
  | quantity
  | array (items : List Node)
  | table (entries : List (Text × Node))
  | items (list : List (List (Text × Node)))
  deriving Repr, Inhabited

abbrev Table := List (Text × Node)

namespace Table

def set (key : Text) (node : Node) : Table → Table
  | [] => [(key,node)]
  | (other,old) :: rest =>
    if other == key then (key,node) :: rest else (other,old) :: set key node rest

/-- Changes the table at the end of a path. The way leads through tables that exist, and into the
latest item of a list of tables. -/
def modify? (change : Table → Option Table) : Key → Table → Option Table
  | [], t => change t
  | key :: path, t =>
    match t.lookup key with
    | some (.table inner) => do return t.set key (.table (← modify? change path inner))
    | some (.items (latest :: before)) => do
      return t.set key (.items ((← modify? change path latest) :: before))
    | _ => none

def at? : Key → Table → Option Table
  | [], t => some t
  | key :: path, t =>
    match t.lookup key with
    | some (.table inner) => at? path inner
    | some (.items (latest :: _)) => at? path latest
    | _ => none

def get? : Key → Table → Option Node
  | [], _ => none
  | [key], t => t.lookup key
  | key :: path, t => match t.lookup key with
    | some (.table inner) => get? path inner
    | _ => none

/-- Puts a node under a path. Tables that are missing on the way are made, and what is no table
ends it. -/
def put? (node : Node) : Key → Table → Option Table
  | [], _ => none
  | [key], t => some (t.set key node)
  | key :: path, t =>
    match t.lookup key with
    | none => do return t.set key (.table (← put? node path []))
    | some (.table inner) => do return t.set key (.table (← put? node path inner))
    | some _ => none

end Table

structure Document where
  root : Table
  keys : List Key
  implicit : List Key
  lists : List Key
  context : Key
  deriving Repr, Inhabited

namespace Document

def empty : Document := ⟨[],[],[],[],[]⟩

def has (d : Document) (context : Key) (key : Text) : Bool :=
  ((d.root.at? context).bind fun t => t.lookup key).isSome

def set? (context : Key) (key : Text) (node : Node) (d : Document) : Option Document := do
  return { d with root := ← d.root.modify? (fun t => some (t.set key node)) context }

/-- Gives a key its value. A table that was only implied may be named now, which leaves it as it is;
where there is a list, or shall be one, the value replaces what was there. -/
def define? (context : Key) (key : Text) (node : Node) (d : Document) : Option Document :=
  let path := context ++ [key]
  let named := { d with implicit := d.implicit.filter (· != path) }
  if !d.has context key then d.set? context key node
  else if !d.implicit.contains path then none
  else if d.lists.contains path then named.set? context key node
  else some named

def imply? (done : Key) : Key → Document → Option Document
  | [], d => some d
  | [_], d => some d
  | key :: path, d => do
    let here := done ++ [key]
    let d ← if d.has done key then pure d
      else do
        let d ← d.set? done key (.table [])
        pure { d with implicit := here :: d.implicit }
    imply? here path d

def openTable? (key : Key) (d : Document) : Option Document := do
  let last ← key.getLast?
  let d ← d.imply? [] key
  let d ← d.define? key.dropLast last (.table [])
  return { d with context := key }

def openItem? (key : Key) (d : Document) : Option Document := do
  let last ← key.getLast?
  let d ← d.imply? [] key
  let root ← d.root.modify? (fun t => match t.lookup last with
    | none => some (t.set last (.items [[]]))
    | some (.items list) => some (t.set last (.items ([] :: list)))
    | some _ => none) key.dropLast
  return { d with root, context := key }

def openImplied? (key : Key) (d : Document) : Option Document :=
  { d with implicit := key :: d.implicit }.openTable? key

def descend? : Key → Document → Option Document
  | [], d => some d
  | [_], d => some d
  | key :: path, d => do descend? path (← d.openImplied? (d.context ++ [key]))

/-- The key that the kind of a value is noted under. An empty one stands for the table that it is
in. -/
def notedKey (d : Document) (key : Text) : Key :=
  if !key.isEmpty then d.context ++ [key]
  else if d.context.isEmpty then [[]]
  else d.context

def note (key : Text) (isList : Bool) (d : Document) : Document :=
  let noted := d.notedKey key
  let others := d.lists.filter (· != noted)
  { d with lists := if isList then noted :: others else others }

def isList : Value → Bool
  | .array _ => true
  | _ => false

mutual

/-- The node that the value of a key describes, which may be an item of a list. The tables in it are
also put in their places, as those of headers are. -/
def evaluate? (key : Text) (inList : Bool) (d : Document) : Value → Option (Node × Document)
  | .text t => some (.text t,d)
  | .bool b => some (.bool b,d)
  | .quantity => some (.quantity,d)
  | .array values => do
    let (nodes,d) ← evaluateItems? key (d.note key true) values
    return (.array nodes,d)
  | .table entries => do
    let outer := d.context
    let here := outer ++ [key]
    let d := { d with implicit := here :: d.implicit }
    let d ← if inList then d.openItem? here else d.openTable? here
    let (table,d) ← evaluateEntries? here [] d entries
    return (.table table,{ d with context := outer })

def evaluateItems? (key : Text) (d : Document) : List Value → Option (List Node × Document)
  | [] => some ([],d)
  | value :: rest => do
    let (node,d) ← evaluate? key true d value
    let (nodes,d) ← evaluateItems? key d rest
    return (node :: nodes,d)

def evaluateEntries? (here : Key) (table : Table) (d : Document) :
    List (Key × Value) → Option (Table × Document)
  | [] => some (table,d)
  | (path,value) :: rest => do
    let key ← path.getLast?
    let d ← d.descend? path
    let d := { d with keys := (d.context ++ [key]) :: d.keys }
    let (node,d) ← evaluate? key false d value
    let d := (← d.define? d.context key node).note key (isList value)
    evaluateEntries? here (← table.put? node path) { d with context := here } rest

end

def add? (d : Document) : Statement → Option Document
  | .table key => do
    let d := (← d.openTable? key).note [] false
    return { d with keys := key :: d.keys }
  | .tableItem key => do
    let d := (← d.openItem? key).note [] false
    return { d with keys := key :: d.keys }
  | .entry path value => do
    let context := d.context
    let (_,d) ← evaluateEntries? context [] d [(path,value)]
    return d

def ofStatements? (statements : List Statement) : Option Document :=
  statements.foldlM add? empty

def parse? (t : Text) : Option Document := (Toml.parse? t).bind ofStatements?

def orderedKeys (d : Document) : List Key := d.keys.reverse

end Document

mutual

/-- Whether a key leads somewhere from a node. The way leads into every item of a list. -/
def Node.leads (key : Key) : Node → Bool
  | .table entries => leadsFrom key entries
  | .items list => leadsFromAny key list
  | .array items => leadsFromItems key items
  | _ => key.isEmpty

def leadsFrom (key : Key) : Table → Bool
  | [] => key.isEmpty
  | (name,node) :: rest =>
    (match key with
      | [] => true
      | part :: path => part == name && node.leads path) || leadsFrom key rest

def leadsFromAny (key : Key) : List Table → Bool
  | [] => key.isEmpty
  | table :: rest => leadsFrom key table || leadsFromAny key rest

def leadsFromItems (key : Key) : List Node → Bool
  | [] => key.isEmpty
  | node :: rest => node.leads key || leadsFromItems key rest

end

def partText (part : Text) : Text :=
  if !part.isEmpty && part.all isBareKeyByte then part
  else
    let inside := part.flatMap fun c =>
      if c == Text.byte '"' || c == Text.byte '\\' then [Text.byte '\\',c]
      else if c == 8 then "\\b"
      else if c == 9 then "\\t"
      else if c == 10 then "\\n"
      else if c == 12 then "\\f"
      else if c == 13 then "\\r"
      else if c < 32 || c == 127 then
        "\\u" ++ Text.padLeft 4 (Text.byte '0') (Text.digits 16 c.toNat)
      else [c]
    Text.cat ["\"",inside,"\""]

def Key.text (key : Key) : Text := Text.join "." (key.map partText)

end WireSchema.Toml
