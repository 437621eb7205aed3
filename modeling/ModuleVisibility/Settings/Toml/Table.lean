import ModuleVisibility.Settings.Toml.Basic

/-!
Tables out of statements. A header opens a table once; a dotted key adds only to tables that dotted
keys made; nothing is added to a value or to a table between braces.
-/
namespace ModuleVisibility
namespace TomlEntries

/-- The entries with another value under a key that they have. -/
def replace (key : String) (value : TomlValue) (entries : TomlEntries) : TomlEntries :=
  entries.map fun (k, v) => if k = key then (k, value) else (k, v)

def erase (key : String) (entries : TomlEntries) : TomlEntries :=
  entries.filter fun (k, _) => k ≠ key

/-- Whether a path that makes tables of the form `fresh` may pass through a table. -/
def passes (fresh form : TableForm) : Bool :=
  match fresh with
  | .dotted => form == .dotted || form == .implied
  | _ => form != .inline

/-- Changes the table at the end of a path. Tables missing on the way are made in the form `fresh`;
of tables in a row the path takes the last. -/
def updateAt? (fresh : TableForm) (change : TableForm → TomlEntries → Option TomlEntries) :
    List String → TableForm → TomlEntries → Option TomlEntries
  | [], form, entries => change form entries
  | key :: path, _, entries =>
    match entries.lookup key with
    | none => do
      let made ← updateAt? fresh change path fresh []
      return entries ++ [(key, .table fresh made)]
    | some (.table form inner) =>
      if passes fresh form then do
        let changed ← updateAt? fresh change path form inner
        return replace key (.table form changed) entries
      else none
    | some (.tables items) =>
      match items.getLast? with
      | some (.table form inner) => do
        let changed ← updateAt? fresh change path form inner
        return replace key (.tables (items.dropLast ++ [.table form changed])) entries
      | _ => none
    | some _ => none

/-- Opens the table of a header, which stands behind the tables opened before it. -/
def openTable? (path : KeyPath) (root : TomlEntries) : Option TomlEntries :=
  updateAt? .implied
    (fun _ entries =>
      match entries.lookup path.last with
      | none => some (entries ++ [(path.last, .table .header [])])
      | some (.table .implied inner) =>
        some (erase path.last entries ++ [(path.last, .table .header inner)])
      | some _ => none)
    path.tables .header root

/-- Adds a table to the row of a header in double brackets. -/
def openItem? (path : KeyPath) (root : TomlEntries) : Option TomlEntries :=
  updateAt? .implied
    (fun _ entries =>
      match entries.lookup path.last with
      | none => some (entries ++ [(path.last, .tables [.table .header []])])
      | some (.tables items) =>
        some (replace path.last (.tables (items ++ [.table .header []])) entries)
      | some _ => none)
    path.tables .header root

/-- Adds a value under a dotted key. The key's dots end in a table that dotted keys made. -/
def insert? (path : KeyPath) (value : TomlValue) (form : TableForm) (entries : TomlEntries) :
    Option TomlEntries :=
  updateAt? .dotted
    (fun form entries =>
      if path.tables ≠ [] ∧ form ≠ .dotted then none
      else match entries.lookup path.last with
        | none => some (entries ++ [(path.last, value)])
        | some _ => none)
    path.tables form entries

/-- A document as far as it was read: its entries and the path of the table opened last. -/
structure Draft where
  current : List String
  root : TomlEntries

def Draft.empty : Draft := ⟨[], []⟩

/-- Adds a statement to a document. -/
def Draft.add (d : Draft) : TomlStatement → Except TomlFault Draft
  | .header path => replaceRoot path (openTable? path d.root) (path.tables ++ [path.last])
  | .itemHeader path => replaceRoot path (openItem? path d.root) (path.tables ++ [path.last])
  | .entry path value =>
    replaceRoot path (updateAt? .implied (insert? path value) d.current .header d.root) d.current
where
  /-- The document with new entries, if there are any. -/
  replaceRoot (path : KeyPath) (root? : Option TomlEntries) (current : List String) :
      Except TomlFault Draft :=
    match root? with
    | some root => .ok ⟨current, root⟩
    | none => .error (.redefined path)

/-- The entries that statements make. -/
def ofStatements (statements : List TomlStatement) : Except TomlFault TomlEntries :=
  Draft.root <$> statements.foldlM Draft.add .empty

mutual

/-- Closes a table that dotted keys made. -/
def sealValue : TomlValue → TomlValue
  | .table .dotted entries => .table .inline (sealEntries entries)
  | v => v

/-- Closes the tables that dotted keys made. -/
def sealEntries : List (String × TomlValue) → List (String × TomlValue)
  | [] => []
  | (k, v) :: rest => (k, sealValue v) :: sealEntries rest

end

/-- The entries of a table between braces. -/
def ofMembers? (members : List (KeyPath × TomlValue)) : Option TomlEntries :=
  sealEntries <$> members.foldlM (fun entries (path, value) =>
    insert? path value .inline entries) []

end TomlEntries
end ModuleVisibility
