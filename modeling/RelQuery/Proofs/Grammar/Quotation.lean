import RelQuery.Proofs.Grammar.RoundTrip
import RelQuery.Proofs.Grammar.Soundness

/-!
# Texts of nodes

Messages quote a node by the text that its span cuts out of the source.  That text can be read again,
and is read as the node, exactly if its parentheses are balanced: the span of a node starts with that
of its first operand, so it may leave out parentheses that are closed inside of it.
-/

namespace RelQuery

open Grammar Grammar.Parser

variable {source : String} {e n : Expr} {ts : List Token}

/-! ## Whole sources -/

theorem balanced_iff (h : Written ts source.toList []) :
    Balanced source ↔ nesting 0 ts = some 0 := by
  rw [Balanced, balances_of_written h, beq_iff_eq]

theorem balanced_of_parse (h : Expr.parse source = .ok e) : Balanced source := by
  obtain ⟨⟨next, hrun⟩, -⟩ := parse_eq_ok_iff.mp h
  obtain ⟨⟨ts, hwritten, hderives⟩, -⟩ := run_query hrun
  rw [balanced_iff hwritten]
  exact hderives.nesting_eq

theorem exists_parse (hwritten : Written ts source.toList []) (hderives : Derives .binding e ts)
    (hfits : e.nodes.any Expr.isOversized = false) :
    ∃ found, Expr.parse source = .ok found ∧ found.strip = e.strip := by
  have hlength : ts.length ≤ source.length := hwritten.length_le
  obtain ⟨found, next, hrun, -, hstrip⟩ :=
    reads_query_of_derives hderives hlength ⟨source.toList, 0⟩ hwritten
  refine ⟨found, parse_eq_ok_iff.mpr ⟨⟨next, hrun⟩, ?_⟩, hstrip⟩
  rw [← any_isOversized_strip, hstrip, any_isOversized_strip, hfits]

/-! ## Nodes -/

theorem nodes_subset (hn : n ∈ e.nodes) : n.nodes ⊆ e.nodes := by
  induction e with
  | constant value span | name x span | formula f span =>
      obtain rfl := List.mem_singleton.mp hn
      exact List.Subset.refl _
  | unary op inner span ih =>
      rcases List.mem_cons.mp hn with rfl | hn
      · exact List.Subset.refl _
      · exact List.subset_cons_of_subset _ (ih hn)
  | binary op left right span ihleft ihright
  | comprehension style names left right span ihleft ihright
  | letIn x left right span ihleft ihright =>
      rcases List.mem_cons.mp hn with rfl | hn
      · exact List.Subset.refl _
      · refine List.subset_cons_of_subset _ ?_
        rcases List.mem_append.mp hn with hn | hn
        · exact List.subset_append_of_subset_left _ (ihleft hn)
        · exact List.subset_append_of_subset_right _ (ihright hn)

theorem any_isOversized_of_mem (h : e.nodes.any Expr.isOversized = false) (hn : n ∈ e.nodes) :
    n.nodes.any Expr.isOversized = false := by
  rw [List.any_eq_false] at h ⊢
  exact fun m hm => h m (nodes_subset hn hm)

/-- The text of a node is written from tokens, which derive it if their parentheses are balanced. -/
theorem Grammar.Quotable.exists_written (h : Quotable source source.toList n) :
    ∃ ts, Written ts n.text.toList [] ∧ (nesting 0 ts = some 0 → Derives .binding n ts) := by
  obtain ⟨before, own, after, ts, hwhole, hspan, hwritten, hderives⟩ := h
  have htext : n.text = String.ofList own := by
    rw [Expr.text, Span.text, hspan, hwhole, Text.sliceBytes?_append]
  rw [htext, String.toList_ofList]
  exact ⟨ts, hwritten.alone, hderives⟩

/-- The text of a node can be read, and is read as the node up to spans, exactly if its parentheses are
balanced. -/
theorem parse_text_iff_balanced (hparse : Expr.parse source = .ok e) (hn : n ∈ e.nodes) :
    (∃ found, Expr.parse n.text = .ok found ∧ found.strip = n.strip) ↔ Balanced n.text := by
  obtain ⟨⟨next, hrun⟩, hfits⟩ := parse_eq_ok_iff.mp hparse
  obtain ⟨ts, hwritten, hderives⟩ := ((run_query hrun).2 n hn).exists_written
  constructor
  · rintro ⟨found, hfound, -⟩
    exact balanced_of_parse hfound
  · intro hbalanced
    have hnesting := (balanced_iff hwritten).mp hbalanced
    exact exists_parse hwritten (hderives hnesting) (any_isOversized_of_mem hfits hn)

namespace Sample

/-- A query with comments, properties and texts with parentheses. -/
def quotedSource : String :=
  "let f = <knows> // a ( here\n | x : #(f . (g ; \"(\")) // and\n" ++
    " | (~(a & <_>) , Σ b [c ; (d)]) - x"

end Sample

theorem sample_parse_text :
    ∃ e, Expr.parse Sample.quotedSource = .ok e ∧ ∃ n ∈ e.nodes,
      n.text = "#(f . (g ; \"(\")) // and\n " ∧ Balanced n.text ∧
      ∃ found, Expr.parse n.text = .ok found ∧ found.strip = n.strip := by
  have hnode : ((Expr.parse Sample.quotedSource).toOption.bind fun e => e.nodes[4]?).map Expr.text =
      some "#(f . (g ; \"(\")) // and\n " := by decide +kernel
  cases hparse : Expr.parse Sample.quotedSource with
  | error err =>
      rw [hparse] at hnode
      cases hnode
  | ok e =>
      rw [hparse] at hnode
      obtain ⟨n, hget, htext⟩ := Option.map_eq_some_iff.mp hnode
      have hn : n ∈ e.nodes := List.mem_of_getElem? hget
      have hbalanced : Balanced n.text := by
        rw [htext]
        decide
      exact ⟨e, rfl, n, hn, htext, hbalanced, (parse_text_iff_balanced hparse hn).mpr hbalanced⟩

/-- The span of an intersection leaves out the parenthesis in front of its first operand, and so its
text cannot be read. -/
theorem intersection_text_unread :
    ∃ e, Expr.parse "(x ; y) & z" = .ok e ∧ e.text = "x ; y) & z" ∧
      ∀ found, Expr.parse e.text ≠ .ok found := by
  have htext : (Expr.parse "(x ; y) & z").toOption.map Expr.text = some "x ; y) & z" := by
    decide +kernel
  have hunread : (Expr.parse "x ; y) & z").toOption = none := by
    decide +kernel
  cases hparse : Expr.parse "(x ; y) & z" with
  | error err =>
      rw [hparse] at htext
      cases htext
  | ok e =>
      rw [hparse] at htext
      have htext : e.text = "x ; y) & z" := Option.some.inj htext
      refine ⟨e, rfl, htext, fun found hfound => ?_⟩
      rw [htext] at hfound
      rw [hfound] at hunread
      cases hunread

end RelQuery
