import DefinitionFiles.Columns

namespace DefinitionFiles

/-- Default values: those of the main row, and those of each sub-row by position. -/
structure Defaults where
  base : Record := ∅
  subs : List Record := []
deriving DecidableEq

structure Filled where
  main : Record
  subs : List Record
  count : Nat

namespace Defaults

def stated (base : Record) (subs : List Record) : Defaults :=
  ⟨base.withoutEmpty, dropBlankEnd (·.isEmpty) (subs.map Record.withoutEmpty)⟩

def isEmpty (defaults : Defaults) : Bool :=
  defaults.base.isEmpty && defaults.subs.all (·.isEmpty)

def overlaySubs : List Record → List Record → List Record
  | subs, [] => subs
  | [], above => above
  | sub :: subs, top :: above => sub.overlay top :: overlaySubs subs above

def merge (defaults above : Defaults) : Defaults :=
  ⟨defaults.base.overlay above.base, overlaySubs defaults.subs above.subs⟩

def fillSubs : List Record → List Record → List Record
  | [], subs => subs
  | _, [] => []
  | defaults :: rest, sub :: subs => sub.fill defaults :: fillSubs rest subs

def fillSubsCount : List Record → List Record → Nat
  | [], _ => 0
  | _, [] => 0
  | defaults :: rest, sub :: subs => sub.fillCount defaults + fillSubsCount rest subs

/-- Fills the empty values of a main record and of its sub-rows, adding no column. -/
def fill (defaults : Defaults) (main : Record) (subs : List Record) : Filled :=
  ⟨main.fill defaults.base, fillSubs defaults.subs subs,
    main.fillCount defaults.base + fillSubsCount defaults.subs subs⟩

end Defaults

end DefinitionFiles
