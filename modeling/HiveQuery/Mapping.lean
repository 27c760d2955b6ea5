import HiveQuery.Tree.Basic
/-!
# Entity mappings

A mapping says which columns the members of an entity are read from, in the order of the members.
-/

namespace HiveQuery

/-- A member of an entity and the column that holds it. -/
structure Member where
  name : String
  column : String
  type : DataType

structure Entity where
  name : String
  members : List Member

/-- The mapped entities, each name once. -/
structure Mapping where
  entities : List Entity := []

namespace Mapping

/-- The mapping with an entity added, which replaces one of the same name. -/
def insert (m : Mapping) (entity : Entity) : Mapping :=
  ⟨entity :: m.entities.filter (·.name != entity.name)⟩

def find? (m : Mapping) (name : String) : Option Entity :=
  m.entities.find? (·.name == name)

@[simp] theorem find?_insert_self (m : Mapping) (entity : Entity) :
    (m.insert entity).find? entity.name = some entity := by
  simp [find?, insert]

end Mapping

end HiveQuery
