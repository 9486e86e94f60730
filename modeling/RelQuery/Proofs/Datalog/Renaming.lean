import Mathlib.Tactic
import RelQuery.Datalog.Basic

/-!
# Programs with other names of relations

A renaming gives the relations of a program other names and leaves everything else as it is.  The
comment before a declaration starts with the name of the relation and a colon, so this name changes
as well.
-/

namespace RelQuery.Datalog

def Atom.rename (ρ : String → String) (atom : Atom) : Atom :=
  { atom with relation := ρ atom.relation }

def Aggregate.rename (ρ : String → String) (a : Aggregate) : Aggregate :=
  { a with atom := a.atom.rename ρ }

def Literal.rename (ρ : String → String) : Literal → Literal
  | positive atom => .positive (atom.rename ρ)
  | negated atom => .negated (atom.rename ρ)
  | aggregate a => .aggregate (a.rename ρ)
  | constraint left op right => .constraint left op right

def Rule.rename (ρ : String → String) (rule : Rule) : Rule :=
  ⟨rule.head.rename ρ, rule.body.map (Literal.rename ρ)⟩

def Decl.rename (ρ : String → String) (decl : Decl) : Decl :=
  { decl with relation := ρ decl.relation }

/-- A comment with another name before its first colon. -/
def renameComment (ρ : String → String) (text : String) : String :=
  ρ (String.ofList (text.toList.takeWhile (· != ':'))) ++
    String.ofList (text.toList.dropWhile (· != ':'))

mutual

def Command.rename (ρ : String → String) : Command → Command
  | .rule r => .rule (r.rename ρ)
  | .decl d => .decl (d.rename ρ)
  | .input relation => .input (ρ relation)
  | .output relation => .output (ρ relation)
  | .comment text => .comment (renameComment ρ text)
  | .raw text => .raw text
  | .group commands => .group (Command.renameAll ρ commands)

def Command.renameAll (ρ : String → String) : List Command → List Command
  | [] => []
  | command :: rest => command.rename ρ :: Command.renameAll ρ rest

end

def Program.rename (ρ : String → String) (program : Program) : Program :=
  ⟨program.commands.map (Command.rename ρ)⟩

/-! ## Renaming nothing -/

theorem Literal.rename_id (l : Literal) : l.rename id = l := by
  cases l <;> rfl

theorem Rule.rename_id (rule : Rule) : rule.rename id = rule := by
  rw [Rule.rename, List.map_congr_left fun l _ => l.rename_id, List.map_id']
  rfl

theorem renameComment_id (text : String) : renameComment id text = text := by
  rw [renameComment, id, ← String.ofList_append, List.takeWhile_append_dropWhile,
    String.ofList_toList]

mutual

theorem Command.rename_id : ∀ command : Command, command.rename id = command
  | .rule r => congrArg Command.rule r.rename_id
  | .decl _ | .input _ | .output _ | .raw _ => rfl
  | .comment text => congrArg Command.comment (renameComment_id text)
  | .group commands => congrArg Command.group (Command.renameAll_id commands)

theorem Command.renameAll_id : ∀ commands : List Command, Command.renameAll id commands = commands
  | [] => rfl
  | command :: rest => by
      rw [Command.renameAll, Command.rename_id command, Command.renameAll_id rest]

end

theorem Program.rename_id (program : Program) : program.rename id = program := by
  rw [Program.rename, List.map_congr_left fun command _ => command.rename_id, List.map_id']

/-! ## Comments -/

/-- A name without a colon is replaced as a whole. -/
theorem renameComment_append (ρ : String → String) {name : String} (h : ':' ∉ name.toList)
    (rest : String) : renameComment ρ (name ++ ":" ++ rest) = ρ name ++ ":" ++ rest := by
  have hname : ∀ c ∈ name.toList, (c != ':') = true := by
    intro c hc
    have hne : c ≠ ':' := fun heq => h (heq ▸ hc)
    simpa using hne
  have htext : (name ++ ":" ++ rest).toList = name.toList ++ ':' :: rest.toList := by
    simp
  rw [renameComment, htext, List.takeWhile_append_of_pos hname, List.dropWhile_append_of_pos hname]
  apply String.toList_inj.mp
  simp

end RelQuery.Datalog
