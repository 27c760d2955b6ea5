import HiveQuery.Mapping
import HiveQuery.Trace
/-!
# Conformance to a mapping

Whatever reads an entity relies on its mapping: the top select of an entity query has to declare the
mapped columns, one for each member in the order of the members and under the mapped names. The
columns are found by name; as a fallback, a member may take the column at its own position.
-/

namespace HiveQuery

namespace Select

/-- The column of the select that a member is read from. -/
def columnOf (s : Select) (entity : Entity) (byPosition : Bool) (position : Nat)
    (member : Member) : Traced Column :=
  match s.column? member.column with
  | some column => pure column
  | none =>
    if byPosition then
      match s.columns[position]? with
      | some column =>
        .report
          [.columnByPosition entity.name member.name member.column column.name position] column
      | none => .fail (.noColumnAtPosition s.label entity.name member.name)
    else .fail (.noColumnOfName s.label member.column entity.name member.name)

/-- The declaration of a member's column: the mapped name, the expression that was found, and its
type unless that is unknown. -/
def memberColumn (member : Member) (found : Column) : Column where
  name := member.column
  expr := found.expr
  type :=
    match found.type with
    | .unknown => member.type
    | type => type

/-- The columns of the members from a position on. No column may be mapped twice. -/
def memberColumns (s : Select) (entity : Entity) (byPosition : Bool) (seen : List String) :
    List Member → Traced (List Column)
  | [] => pure []
  | member :: members => do
    if seen.contains member.column then .fail (.columnMappedTwice entity.name member.column)
    let found ← s.columnOf entity byPosition seen.length member
    let columns ← s.memberColumns entity byPosition (seen ++ [member.column]) members
    return memberColumn member found :: columns

end Select

/-- The projector that reads the columns of the members. -/
def Entity.projector (entity : Entity) (label : String) : Projector :=
  .entity entity.name (entity.members.map fun member => ⟨member.name, .column label member.column⟩)

/-- Bring the top select of an entity query to the columns that its mapping expects. -/
def Projection.conform (mapping : Mapping) (byPosition : Bool) (p : Projection) :
    Traced Projection :=
  match p.projector with
  | .scalar _ => pure p
  | .entity name _ =>
    match mapping.find? name with
    | none => .fail (.unknownEntity name)
    | some entity => do
      let columns ← p.select.memberColumns entity byPosition [] entity.members
      .emit (.conformed entity.name p.select.label)
      return ⟨{ p.select with columns }, entity.projector p.select.label⟩

/-- Bring the top select of every entity query to its mapping. -/
def Statement.conform (mapping : Mapping) (byPosition : Bool) (s : Statement) : Traced Statement :=
  s.mapQueriesM (Projection.conform mapping byPosition)

end HiveQuery
