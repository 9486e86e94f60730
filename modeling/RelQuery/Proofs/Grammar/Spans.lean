import RelQuery.Proofs.Grammar.Inheritance
import RelQuery.Proofs.Grammar.Quotation

/-!
# Nesting of spans

Every node that is read has a piece of the source of its own, at least one character long.  The
piece of a child lies within that of its parent, and those of two children lie apart and in order.
What is passed on from band to band is a pair of offsets between which an expression lies.  Layout
behind an expression moves the second one, as does a parenthesis, so it does not matter whether a
node takes the layout behind it in.
-/

namespace RelQuery

namespace Expr

/-- The span of a node is a piece of the source that has a character and cuts none. -/
structure IsPiece (source : String) (n : Expr) : Prop where
  source_eq : n.span.source = source
  start_lt_stop : n.span.start < n.span.stop
  stop_le : n.span.stop ≤ source.utf8ByteSize
  start_valid : String.Pos.Raw.IsValid source ⟨n.span.start⟩
  stop_valid : String.Pos.Raw.IsValid source ⟨n.span.stop⟩
  text_ne : n.text ≠ ""

/-- The spans of the children lie within that of their parent, apart and in order. -/
structure Nested (n : Expr) : Prop where
  inside : ∀ c ∈ n.children, n.span.start ≤ c.span.start ∧ c.span.stop ≤ n.span.stop
  apart : n.children.Pairwise fun a b => a.span.stop ≤ b.span.start

end Expr

namespace Grammar

open RelQuery.Grammar.Parser
open Text (byteLength byteLength_append)

/-! ## Offsets around an expression -/

/-- An expression lies between two offsets, and its nodes are nested. -/
structure Lies (lo hi : Nat) (e : Expr) : Prop where
  lo_le : lo ≤ e.span.start
  start_le : e.span.start ≤ e.span.stop
  le_hi : e.span.stop ≤ hi
  nested : ∀ n ∈ e.nodes, n.Nested

section Lies

variable {source : String} {lo mid hi start stop : Nat} {e left right : Expr}

theorem Lies.le (h : Lies lo hi e) : lo ≤ hi :=
  h.lo_le.trans (h.start_le.trans h.le_hi)

theorem Lies.fromStart (h : Lies lo hi e) : Lies e.span.start hi e :=
  ⟨le_rfl, h.start_le, h.le_hi, h.nested⟩

theorem Lies.widen {lo' hi' : Nat} (h : Lies lo hi e) (hlo : lo' ≤ lo) (hhi : hi ≤ hi') :
    Lies lo' hi' e :=
  ⟨hlo.trans h.lo_le, h.start_le, h.le_hi.trans hhi, h.nested⟩

/-- A node lies where its span is, if its children do and lie apart. -/
theorem Lies.node (hspan : e.span = ⟨source, start, stop⟩) (hle : start ≤ stop)
    (hchildren : ∀ c ∈ e.children, Lies start stop c)
    (hapart : e.children.Pairwise fun a b => a.span.stop ≤ b.span.start) : Lies start stop e := by
  refine ⟨by rw [hspan], by rw [hspan]; exact hle, by rw [hspan], fun n hn => ?_⟩
  rcases Expr.mem_nodes_iff.mp hn with rfl | ⟨c, hc, hn⟩
  · refine ⟨fun c hc => ?_, hapart⟩
    rw [hspan]
    exact ⟨(hchildren c hc).lo_le, (hchildren c hc).le_hi⟩
  · exact (hchildren c hc).nested n hn

theorem Lies.unary (source : String) (op : UnaryOp) (h : Lies start stop e) :
    Lies start stop (.unary op e ⟨source, start, stop⟩) := by
  refine .node rfl h.le ?_ (List.pairwise_singleton _ _)
  simpa [Expr.children] using h

/-- A node with two children, one before and one behind an offset. -/
theorem Lies.pair (hchildren : e.children = [left, right])
    (hspan : e.span = ⟨source, start, stop⟩) (hleft : Lies start mid left)
    (hright : Lies mid stop right) : Lies start stop e := by
  refine .node hspan (hleft.le.trans hright.le) ?_ ?_
  · rw [hchildren, List.forall_mem_cons, List.forall_mem_singleton]
    exact ⟨hleft.widen le_rfl hright.le, hright.widen hleft.le le_rfl⟩
  · rw [hchildren, List.pairwise_pair]
    exact hleft.le_hi.trans hright.lo_le

/-- An expression lies from any place at which its span may be taken to start. -/
theorem Lies.startAt (h : Lies lo hi e) (hstart : start = lo ∨ start = e.span.start) :
    lo ≤ start ∧ Lies start hi e := by
  rcases hstart with rfl | rfl
  · exact ⟨le_rfl, h⟩
  · exact ⟨h.lo_le, h.fromStart⟩

theorem Lies.stopAt (h : Lies lo hi e) (hstop : stop = hi ∨ stop = e.span.stop) :
    stop ≤ hi ∧ Lies lo stop e := by
  rcases hstop with rfl | rfl
  · exact ⟨le_rfl, h⟩
  · exact ⟨h.le_hi, h.lo_le, h.start_le, le_rfl, h.nested⟩

end Lies

/-- An expression lies within the characters that were read. -/
def Placed (before taken _after : List Char) (e : Expr) : Prop :=
  Lies (byteLength before) (byteLength (before ++ taken)) e

variable {source : String}

theorem Lies.propertyOf (source : String) {start stop : Nat} {named : Expr}
    (h : Lies start stop named) :
    Lies start stop (Grammar.propertyOf named ⟨source, start, stop⟩) := by
  unfold Grammar.propertyOf
  split
  · exact .node rfl h.le (by simp [Expr.children]) (by simp [Expr.children])
  · exact h.unary _ _

theorem inherited_placed : Inherited source Placed where
  leaf {before cs after t e} _ hderives hspan := by
    have hchildren : e.children = [] := by
      rcases hderives.leaf_cases with ⟨_, _, -, rfl⟩ | ⟨_, _, -, rfl⟩ | ⟨_, _, -, rfl⟩ | ⟨_, _, -, rfl⟩
        <;> rfl
    exact .node hspan (by simp) (by simp [hchildren]) (by simp [hchildren])
  angle h := h.propertyOf source
  skip_left _ h := h.widen (by simp) (by simp)
  skip_right h _ := h.widen le_rfl (by simp)
  unary hstart h := by
    obtain ⟨hle, hlies⟩ := h.startAt hstart
    exact (hlies.unary source _).widen hle le_rfl
  pair hchildren hspan hstart hstop hleft hright := by
    obtain ⟨hlo, hfirst⟩ := hleft.startAt hstart
    obtain ⟨hhi, hsecond⟩ := hright.stopAt (by simpa using hstop)
    exact (Lies.pair hchildren hspan hfirst hsecond).widen hlo (by simpa using hhi)

theorem nested_of_run_query {e : Expr} {next : Cursor}
    (hrun : (query source ⟨source.toList, 0⟩).value = some (e, next)) :
    ∀ n ∈ e.nodes, n.Nested :=
  (inherits_query inherited_placed hrun).nested

/-! ## Pieces of the source -/

/-- The span of a node that can be quoted has at least one character. -/
theorem Quotable.exists_piece {n : Expr} (h : Quotable source source.toList n) :
    ∃ before c own after, source.toList = before ++ (c :: own ++ after) ∧
      n.span = ⟨source, byteLength before, byteLength (before ++ c :: own)⟩ := by
  obtain ⟨before, own, after, tokens, hsource, hspan, hwritten, hderives⟩ := h
  cases own with
  | nil =>
      obtain rfl : tokens = [] := List.length_eq_zero_iff.mp (Nat.le_zero.mp hwritten.length_le)
      obtain ⟨t, ts, heq, -⟩ := (hderives rfl).head
      cases heq
  | cons c own => exact ⟨before, c, own, after, hsource, hspan⟩

/-- The offset behind some characters of a text does not fall inside a character. -/
theorem isValid_byteLength {before after : List Char} (h : source.toList = before ++ after) :
    String.Pos.Raw.IsValid source ⟨byteLength before⟩ := by
  have hlength : byteLength before = (String.ofList before).utf8ByteSize := by
    rw [← Text.byteLength_toList, String.toList_ofList]
  refine String.Pos.Raw.isValid_iff_exists_append.mpr
    ⟨String.ofList before, String.ofList after, ?_, ?_⟩
  · rw [← String.ofList_append, ← h, String.ofList_toList]
  · rw [hlength]
    rfl

theorem Quotable.isPiece {n : Expr} (h : Quotable source source.toList n) : n.IsPiece source := by
  obtain ⟨before, c, own, after, hsource, hspan⟩ := h.exists_piece
  have hpositive : 0 < byteLength (c :: own) := Nat.add_pos_left c.utf8Size_pos _
  have hstop : n.span.stop = byteLength before + byteLength (c :: own) := by
    rw [hspan, byteLength_append]
  have hsize : source.utf8ByteSize =
      byteLength before + (byteLength (c :: own) + byteLength after) := by
    rw [← Text.byteLength_toList, hsource, byteLength_append, byteLength_append]
  have htext : n.text = String.ofList (c :: own) := by
    rw [Expr.text, Span.text, hspan, hsource, Text.sliceBytes?_append]
  refine ⟨by rw [hspan], ?_, by omega, ?_, ?_, ?_⟩
  · rw [hstop, hspan]
    exact Nat.lt_add_of_pos_right hpositive
  · rw [hspan]
    exact isValid_byteLength hsource
  · have hsource' : source.toList = (before ++ c :: own) ++ after := by
      rw [hsource, List.append_assoc]
    rw [hspan]
    exact isValid_byteLength hsource'
  · rw [htext]
    simp

end Grammar

open Grammar

/-- Each node of a query has a piece of the source for its span, and the spans of its children lie
within it, apart and in order. -/
theorem spans_nested {source : String} {e : Expr} (h : Expr.parse source = .ok e) :
    ∀ n ∈ e.nodes, n.IsPiece source ∧ n.Nested := by
  obtain ⟨⟨next, hrun⟩, -⟩ := parse_eq_ok_iff.mp h
  exact fun n hn => ⟨((run_query hrun).2 n hn).isPiece, nested_of_run_query hrun n hn⟩

namespace Sample

/-- A query whose nodes take in layout and a comment, leave out parentheses and hold characters of
two bytes. -/
def spacedSource : String :=
  "x : Σ(r . 'é') // sum\n  -> (some x  ) & <p>"

end Sample

theorem sample_spans_nested :
    ∃ e, Expr.parse Sample.spacedSource = .ok e ∧
      e.nodes.map (fun n => (n.span.start, n.span.stop)) =
        [(0, 45), (4, 26), (7, 15), (7, 8), (11, 15), (30, 45), (30, 38), (35, 36), (42, 45),
          (43, 44)] ∧
      ∀ n ∈ e.nodes, n.IsPiece Sample.spacedSource ∧ n.Nested := by
  have hspans : (Expr.parse Sample.spacedSource).toOption.map
      (fun e => e.nodes.map fun n => (n.span.start, n.span.stop)) =
        some [(0, 45), (4, 26), (7, 15), (7, 8), (11, 15), (30, 45), (30, 38), (35, 36), (42, 45),
          (43, 44)] := by
    decide +kernel
  cases hparse : Expr.parse Sample.spacedSource with
  | error err =>
      rw [hparse] at hspans
      cases hspans
  | ok e =>
      rw [hparse] at hspans
      exact ⟨e, rfl, Option.some.inj hspans, spans_nested hparse⟩

end RelQuery
