import DefinitionFiles.Defaults

namespace DefinitionFiles

structure DefaultsTable where
  entries : Std.ExtTreeMap String Defaults := ∅
deriving DecidableEq

namespace DefaultsTable

def get? (table : DefaultsTable) (category : String) : Option Defaults :=
  table.entries[category]?

def contains (table : DefaultsTable) (category : String) : Bool :=
  table.entries.contains category

def size (table : DefaultsTable) : Nat := table.entries.size

def insert (table : DefaultsTable) (category : String) (entry : Defaults) : DefaultsTable :=
  ⟨table.entries.insert category entry⟩

/-- The entry that a category has once more values are laid over it. -/
def merged (table : DefaultsTable) (category : String) (entry : Defaults) : Defaults :=
  ((table.get? category).getD {}).merge entry

def merge (table : DefaultsTable) (category : String) (entry : Defaults) : DefaultsTable :=
  table.insert category (table.merged category entry)

def first? (table : DefaultsTable) (categories : List String) : Option Defaults :=
  categories.findSome? table.get?

def categories (table : DefaultsTable) : List String := table.entries.keys

def toList (table : DefaultsTable) : List (String × Defaults) := table.entries.toList

end DefaultsTable

/-- Tables that several handles share. -/
structure SharedTables where
  tables : Array DefaultsTable := #[{}]
  handles : Array Nat := #[0]

structure MergeCall where
  handle : Nat
  category : String
  entry : Defaults

namespace SharedTables

def table (shared : SharedTables) (handle : Nat) : DefaultsTable :=
  ((shared.handles[handle]?.bind (shared.tables[·]?))).getD {}

def share (shared : SharedTables) (handle : Nat) : SharedTables :=
  { shared with handles := shared.handles.push (shared.handles[handle]?.getD 0) }

def create (shared : SharedTables) : SharedTables :=
  { tables := shared.tables.push {}, handles := shared.handles.push shared.tables.size }

def set (shared : SharedTables) (handle : Nat) (table : DefaultsTable) : SharedTables :=
  match shared.handles[handle]? with
  | none => shared
  | some index => { shared with tables := shared.tables.setIfInBounds index table }

/-- Merges an entry into a category, and gives a copy of what the category then has. -/
def merge (shared : SharedTables) (call : MergeCall) : Defaults × SharedTables :=
  let table := shared.table call.handle
  (table.merged call.category call.entry,
    shared.set call.handle (table.merge call.category call.entry))

end SharedTables

end DefinitionFiles
