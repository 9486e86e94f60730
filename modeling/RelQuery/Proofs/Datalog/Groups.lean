import Mathlib.Tactic
import RelQuery.Datalog.Printer

/-!
# Groups and blank lines

The text of a group has the texts of its commands on lines of their own, and so down to the commands
that are no groups.  A group without commands has the empty text, which is a blank line among the
lines around it.  The text of a program has no such lines, because groups are dissolved first.  So
the two texts are the same when no group is empty.  Otherwise the lengths differ by one line break
for each empty group, unless all there is is one empty group.
-/

namespace RelQuery.Datalog

/-! ## Joined lines -/

theorem lines_singleton (item : String) : lines [item] = item :=
  String.intercalate_singleton

theorem lines_cons_cons (first second : String) (rest : List String) :
    lines (first :: second :: rest) = first ++ "\n" ++ lines (second :: rest) := by
  rw [lines, String.intercalate_cons_cons, ← lines]

theorem length_lines (items : List String) :
    (lines items).length = (items.map String.length).sum + (items.length - 1) := by
  induction items with
  | nil => rfl
  | cons first rest ih =>
      cases rest with
      | nil => simp [lines_singleton]
      | cons second rest =>
          have hbreak : "\n".length = 1 := rfl
          rw [lines_cons_cons, String.length_append, String.length_append, ih, hbreak]
          simp only [List.map_cons, List.sum_cons, List.length_cons]
          omega

/-! ## The lines of a group -/

mutual

/-- The texts on the lines of a command. -/
def Command.texts : Command → List String
  | .group commands => if commands.isEmpty then [""] else Command.textsAll commands
  | command => [command.render]

def Command.textsAll : List Command → List String
  | [] => []
  | command :: rest => command.texts ++ Command.textsAll rest

end

mutual

def Command.emptyGroups : Command → Nat
  | .group commands => if commands.isEmpty then 1 else Command.emptyGroupsAll commands
  | _ => 0

def Command.emptyGroupsAll : List Command → Nat
  | [] => 0
  | command :: rest => command.emptyGroups + Command.emptyGroupsAll rest

end

theorem Command.texts_ne_nil : ∀ command : Command, command.texts ≠ []
  | .group [] => by simp [texts]
  | .group (command :: rest) => by simp [texts, textsAll, command.texts_ne_nil]
  | .rule _ | .decl _ | .input _ | .output _ | .comment _ | .raw _ => by simp [texts]

mutual

theorem Command.render_eq_lines : ∀ command : Command, command.render = lines command.texts
  | .group [] => rfl
  | .group (command :: rest) => by
      rw [render, lines_renderAll (command :: rest)]
      rfl
  | .rule _ | .decl _ | .input _ | .output _ | .comment _ | .raw _ => (lines_singleton _).symm

theorem Command.lines_renderAll :
    ∀ commands : List Command, lines (Command.renderAll commands) = lines (Command.textsAll commands)
  | [] => rfl
  | [command] => by
      rw [renderAll, renderAll, lines_singleton, command.render_eq_lines, textsAll, textsAll,
        List.append_nil]
  | command :: second :: rest => by
      have hrest : textsAll (second :: rest) ≠ [] := by simp [textsAll, second.texts_ne_nil]
      rw [renderAll, renderAll, lines_cons_cons, ← renderAll, lines_renderAll (second :: rest),
        command.render_eq_lines]
      exact (String.intercalate_append_of_ne_nil command.texts_ne_nil hrest).symm

end

mutual

/-- The commands that are no groups have their lines in order. -/
theorem Command.flatten_sublist :
    ∀ command : Command, (command.flatten.map Command.render).Sublist command.texts
  | .group [] => by simp [flatten, flattenAll]
  | .group (command :: rest) => Command.flattenAll_sublist (command :: rest)
  | .rule _ | .decl _ | .input _ | .output _ | .comment _ | .raw _ => List.Sublist.refl _

theorem Command.flattenAll_sublist : ∀ commands : List Command,
    ((Command.flattenAll commands).map Command.render).Sublist (Command.textsAll commands)
  | [] => List.Sublist.refl _
  | command :: rest => by
      rw [flattenAll, List.map_append, textsAll]
      exact command.flatten_sublist.append (Command.flattenAll_sublist rest)

end

mutual

/-- Besides the lines of the commands that are no groups, there is an empty one for each empty
group. -/
theorem Command.texts_perm : ∀ command : Command,
    command.texts.Perm (command.flatten.map Command.render ++
      List.replicate command.emptyGroups "")
  | .group [] => List.Perm.refl _
  | .group (command :: rest) => Command.textsAll_perm (command :: rest)
  | .rule _ | .decl _ | .input _ | .output _ | .comment _ | .raw _ => List.Perm.refl _

theorem Command.textsAll_perm : ∀ commands : List Command,
    (Command.textsAll commands).Perm ((Command.flattenAll commands).map Command.render ++
      List.replicate (Command.emptyGroupsAll commands) "")
  | [] => List.Perm.refl _
  | command :: rest => by
      rw [textsAll, flattenAll, emptyGroupsAll, List.map_append, List.replicate_add,
        List.append_assoc]
      have hjoined := command.texts_perm.append (Command.textsAll_perm rest)
      refine hjoined.trans ?_
      rw [List.append_assoc]
      exact (List.perm_append_comm_assoc _ _ _).append_left _

end

/-- The text of a group is that of the program of its commands when no group in it is empty, and
when there is nothing in it but one empty group. -/
theorem render_group_eq_iff (commands : List Command) :
    (Command.group commands).render = Program.render ⟨commands⟩ ↔
      Command.emptyGroupsAll commands = 0 ∨
        (Command.emptyGroupsAll commands = 1 ∧ Command.flattenAll commands = []) := by
  have hperm := Command.textsAll_perm commands
  have hlength := hperm.length_eq
  rw [List.length_append, List.length_map, List.length_replicate] at hlength
  rw [Command.render, Command.lines_renderAll, Program.render, Program.flatten]
  constructor
  · intro h
    have hsum := (hperm.map String.length).sum_eq
    have htext := congrArg String.length h
    simp only [length_lines, hsum, hlength, List.map_append, List.sum_append, List.map_replicate,
      List.sum_replicate, String.length_empty, smul_zero, add_zero, List.length_map] at htext
    rw [← List.length_eq_zero_iff]
    omega
  · rintro (hnone | ⟨hone, hnil⟩)
    · rw [(Command.flattenAll_sublist commands).eq_of_length (by simp [hlength, hnone])]
    · rw [hnil, hone] at hperm
      rw [List.perm_singleton.mp hperm, hnil]
      rfl

/-- An empty group between two commands is a blank line in the text of a group only. -/
theorem blank_line_of_empty_group :
    (Command.group [.input "r", .group [], .output "r"]).render = ".input r\n\n.output r" ∧
      Program.render ⟨[.input "r", .group [], .output "r"]⟩ = ".input r\n.output r" := by
  decide

end RelQuery.Datalog
