import RelQuery.Datalog.Basic

/-!
# Declarations before uses

A command uses the relations of its rule, or the relation that it reads or writes.  A use is
offending when no earlier command declares the relation.
-/

namespace RelQuery.Datalog

namespace Command

/-- The relations that a command uses, in order; a group uses none by itself. -/
def uses : Command → List String
  | rule r => r.head.relation :: r.bodyRelations
  | input relation | output relation => [relation]
  | decl _ | comment _ | raw _ | group _ => []

def declares : Command → List String
  | decl d => [d.relation]
  | _ => []

/-- The offending uses among commands that follow the declarations of `declared`. -/
def offending (declared : List String) : List Command → List String
  | [] => []
  | command :: rest =>
    command.uses.filter (fun name => !declared.contains name)
      ++ offending (command.declares ++ declared) rest

end Command

/-- The relations that are used before they are declared, each once, by their first such use. -/
def Program.undeclaredUses (program : Program) : List String :=
  (Command.offending [] program.flatten).eraseDups

end RelQuery.Datalog
