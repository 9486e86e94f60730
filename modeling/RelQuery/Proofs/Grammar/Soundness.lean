import RelQuery.Proofs.Grammar.Nesting
import RelQuery.Proofs.Grammar.Traversal

/-!
# What an expression was read from

Every expression that the grammar reads is derived from the tokens that it was read from.  The span
of an expression need not cover all of them: parentheses around it, and around its first or last
operand, may lie outside.  Behind a row its span ends before the parentheses of the last operand, and
it starts behind those of the first one.
-/

namespace RelQuery.Grammar

open RelQuery.Grammar.Parser
open Text (byteLength)

variable {source : String} {b c : Band} {e : Expr} {before taken after whole : List Char}

/-! ## Frames -/

/-- How the characters that were read as an expression lie around its span: parentheses that are
opened before it, and layout and parentheses that are closed behind it. -/
structure Frame (source : String) (b : Band) (e : Expr) (before taken after : List Char) where
  pre : List Char
  own : List Char
  post : List Char
  opened : Nat
  tokens : List Token
  closed : Nat
  taken_eq : taken = pre ++ (own ++ post)
  written_pre : Written (List.replicate opened (.sign .openParen)) pre (own ++ (post ++ after))
  written_own : Written tokens own (post ++ after)
  written_post : Written (List.replicate closed (.sign .closeParen)) post after
  derives : Derives b e (List.replicate opened (.sign .openParen) ++
    (tokens ++ List.replicate closed (.sign .closeParen)))
  span_eq : e.span = ⟨source, byteLength (before ++ pre), byteLength (before ++ (pre ++ own))⟩

/-- The span of a node cuts out a text that is written from tokens; these derive the node if their
parentheses are balanced. -/
def Quotable (source : String) (whole : List Char) (n : Expr) : Prop :=
  ∃ before own after tokens, whole = before ++ (own ++ after) ∧
    n.span = ⟨source, byteLength before, byteLength (before ++ own)⟩ ∧
    Written tokens own after ∧ (nesting 0 tokens = some 0 → Derives .binding n tokens)

/-- What is known of an expression that a parser of a band has read. -/
structure Found (source : String) (b : Band) (before taken after : List Char) (e : Expr) : Prop where
  frame : Nonempty (Frame source b e before taken after)
  nodes : ∀ n ∈ e.nodes, Quotable source (before ++ (taken ++ after)) n

theorem Frame.written (frame : Frame source b e before taken after) :
    Written (List.replicate frame.opened (.sign .openParen) ++
      (frame.tokens ++ List.replicate frame.closed (.sign .closeParen))) taken after := by
  have hwritten := frame.written_pre.append frame.written_own |>.append frame.written_post
  rwa [List.append_assoc, List.append_assoc, ← frame.taken_eq] at hwritten

theorem Found.exists_derives (h : Found source b before taken after e) :
    ∃ ts, Written ts taken after ∧ Derives b e ts := by
  obtain ⟨frame⟩ := h.frame
  exact ⟨_, frame.written, frame.derives⟩

/-- A node can be quoted if balanced parentheses tell that none is opened in front of its span. -/
theorem Frame.quotable (frame : Frame source b e before taken after)
    (h : nesting 0 frame.tokens = some 0 → frame.opened = 0) :
    Quotable source (before ++ (taken ++ after)) e := by
  refine ⟨before ++ frame.pre, frame.own, frame.post ++ after, frame.tokens, ?_, ?_,
    frame.written_own, ?_⟩
  · refine (congrArg (fun u => before ++ (u ++ after)) frame.taken_eq).trans ?_
    simp
  · rw [frame.span_eq, List.append_assoc]
  · intro hnesting
    have hderives := frame.derives
    rw [h hnesting, List.replicate_zero, List.nil_append] at hderives
    have hclosed : nesting 0 _ = some 0 := hderives.nesting_eq
    rw [nesting_append, hnesting, Option.bind_some] at hclosed
    rw [closed_eq_zero hclosed, List.replicate_zero, List.append_nil] at hderives
    exact hderives.loosen (Nat.zero_le _)

theorem nodes_eq (e : Expr) : e.nodes = e :: e.nodes.tail := by
  cases e <;> rfl

theorem Found.loosen (h : Found source b.tighter before taken after e) (hb : b ≠ .atom) :
    Found source b before taken after e := by
  obtain ⟨frame⟩ := h.frame
  exact ⟨⟨{ frame with derives := .tighter hb frame.derives }⟩, h.nodes⟩

/-- Layout behind an expression does not belong to it. -/
theorem Found.layout {w : List Char} (h : Found source b before taken (w ++ after) e)
    (hw : Written [] w after) : Found source b before (taken ++ w) after e := by
  refine ⟨?_, by simpa using h.nodes⟩
  obtain ⟨⟨pre, own, post, opened, tokens, closed, rfl, hpre, hown, hpost, hderives, hspan⟩⟩ := h.frame
  exact ⟨pre, own, post ++ w, opened, tokens, closed, by simp, by simpa using hpre,
    by simpa using hown, hpost.skip hw, hderives, hspan⟩

/-- An expression whose span is all that was read. -/
theorem Found.of_whole {ts : List Token} (hwritten : Written ts taken after)
    (hderives : Derives b e ts)
    (hspan : e.span = ⟨source, byteLength before, byteLength (before ++ taken)⟩)
    (hnodes : ∀ n ∈ e.nodes.tail, Quotable source (before ++ (taken ++ after)) n) :
    Found source b before taken after e := by
  let frame : Frame source b e before taken after :=
    { pre := []
      own := taken
      post := []
      opened := 0
      tokens := ts
      closed := 0
      taken_eq := by simp
      written_pre := .layout .nil (by simp)
      written_own := hwritten
      written_post := .layout .nil (by simp)
      derives := by simpa using hderives
      span_eq := by simpa using hspan }
  refine ⟨⟨frame⟩, ?_⟩
  rw [nodes_eq, List.forall_mem_cons]
  exact ⟨frame.quotable fun _ => rfl, hnodes⟩

/-- An expression that goes on behind its first operand, with whose span its own one starts. -/
theorem Found.attach {left : Expr} {v post : List Char} {vs : List Token} {closed : Nat}
    (h : Found source c before taken (v ++ (post ++ after)) left)
    (hv : Written vs v (post ++ after))
    (hpost : Written (List.replicate closed (.sign .closeParen)) post after)
    (hderives : ∀ ts, Derives c left ts →
      Derives b e (ts ++ (vs ++ List.replicate closed (.sign .closeParen))))
    (hspan : e.span = ⟨source, left.span.start, byteLength (before ++ (taken ++ v))⟩)
    (hnodes : ∀ n ∈ e.nodes.tail, n ∈ left.nodes ∨
      Quotable source (before ++ (taken ++ (v ++ (post ++ after)))) n) :
    Found source b before (taken ++ (v ++ post)) after e := by
  have hleft := h.nodes
  obtain ⟨⟨pre, own, post', opened, tokens, closed', rfl, hpre, hown, hpost', hfirst, hstart⟩⟩ :=
    h.frame
  let frame : Frame source b e before (pre ++ (own ++ post') ++ (v ++ post)) after :=
    { pre := pre
      own := own ++ post' ++ v
      post := post
      opened := opened
      tokens := tokens ++ List.replicate closed' (.sign .closeParen) ++ vs
      closed := closed
      taken_eq := by simp
      written_pre := by simpa using hpre
      written_own := hown.append hpost' |>.append hv
      written_post := hpost
      derives := by simpa using hderives _ hfirst
      span_eq := by rw [hspan, hstart]; simp }
  refine ⟨⟨frame⟩, ?_⟩
  rw [nodes_eq, List.forall_mem_cons]
  refine ⟨frame.quotable fun hnesting => opened_eq_zero hfirst hnesting, fun n hn => ?_⟩
  · rcases hnodes n hn with hmem | hquotable
    · simpa using hleft n hmem
    · simpa using hquotable

/-- An expression that goes on behind its first operand to the end of what was read. -/
theorem Found.lengthen {left : Expr} {v : List Char} {vs : List Token}
    (h : Found source c before taken (v ++ after) left) (hv : Written vs v after)
    (hderives : ∀ ts, Derives c left ts → Derives b e (ts ++ vs))
    (hspan : e.span = ⟨source, left.span.start, byteLength (before ++ (taken ++ v))⟩)
    (hnodes : ∀ n ∈ e.nodes.tail, n ∈ left.nodes ∨
      Quotable source (before ++ (taken ++ (v ++ after))) n) :
    Found source b before (taken ++ v) after e := by
  have hpost : Written (List.replicate 0 (.sign .closeParen)) [] after := .layout .nil (by simp)
  have hfound : Found source b before (taken ++ (v ++ [])) after e :=
    h.attach hv hpost (by simpa using hderives) hspan hnodes
  simpa using hfound

/-! ## Rules -/

theorem found_leaf {t : Token} (hspelled : t.Spelled taken after) (hderives : Derives .atom e [t])
    (hspan : e.span = ⟨source, byteLength before, byteLength (before ++ taken)⟩) :
    Found source .atom before taken after e := by
  have hnodes : e.nodes.tail = [] := by
    rcases hderives.leaf_cases with ⟨_, _, -, rfl⟩ | ⟨_, _, -, rfl⟩ | ⟨_, _, -, rfl⟩ | ⟨_, _, -, rfl⟩
      <;> rfl
  exact .of_whole hspelled.written hderives hspan (by simp [hnodes])

theorem span_propertyOf (named : Expr) (span : Span) : (propertyOf named span).span = span := by
  unfold propertyOf
  split <;> rfl

theorem eq_of_mem_propertyOf {x : String} {inner span : Span} {n : Expr}
    (h : n ∈ (propertyOf (.name x inner) span).nodes.tail) : n = .name x inner := by
  unfold propertyOf at h
  split at h
  · cases h
  · exact List.mem_singleton.mp h

theorem found_property {named : Expr}
    (h : Between .less .greater (Named source) before taken after named) :
    Found source .atom before taken after
      (propertyOf named ⟨source, byteLength before, byteLength (before ++ taken)⟩) := by
  obtain ⟨u, v, w, rfl, hopen, ⟨x, rfl, hspelled⟩, hclose⟩ := h
  have hname : Found source .atom (before ++ u) v (w ++ after) _ := found_leaf hspelled .name rfl
  rw [← List.append_assoc] at hopen
  have hwritten := hopen.append (hspelled.written.append hclose)
  refine .of_whole hwritten .property (span_propertyOf _ _) fun n hn => ?_
  obtain rfl := eq_of_mem_propertyOf hn
  simpa using hname.nodes _ List.mem_cons_self

/-- Parentheses around an expression lie outside of its span. -/
theorem found_paren (h : Between .openParen .closeParen (Found source .binding) before taken after e) :
    Found source .atom before taken after e := by
  obtain ⟨u, v, w, rfl, hopen, hinner, hclose⟩ := h
  refine ⟨?_, by simpa using hinner.nodes⟩
  obtain ⟨⟨pre, own, post, opened, tokens, closed, rfl, hpre, hown, hpost, hderives, hspan⟩⟩ :=
    hinner.frame
  simp only [List.append_assoc] at hopen
  refine ⟨u ++ pre, own, post ++ w, opened + 1, tokens, closed + 1, by simp, ?_,
    by simpa using hown, ?_, ?_, by rw [hspan]; simp⟩
  · simpa [List.replicate_succ] using hopen.append hpre
  · simpa [List.replicate_succ'] using hpost.append hclose
  · have hparen := hderives.paren
    rw [List.replicate_succ (n := opened), List.replicate_succ' (n := closed)]
    simpa using hparen

theorem found_leading {op : UnaryOp} {inner : Expr} (hop : op.band = b) (hb : b.isLeading = true)
    (h : Behind [op.token] (Found source b) before taken after inner) :
    Found source b before taken after
      (.unary op inner ⟨source, byteLength before, byteLength (before ++ taken)⟩) := by
  obtain ⟨u, v, rfl, hhead, hinner⟩ := h
  obtain ⟨ts, hts, hderives⟩ := hinner.exists_derives
  refine .of_whole (hhead.append hts) (.leading hop hb hderives) rfl fun n hn => ?_
  simpa using hinner.nodes n hn

/-- A node of an operator between two operands. -/
theorem Found.combine (op : BinaryOp) {left right : Expr} {mid u : List Char}
    (hleft : Found source op.leftSlot before taken (mid ++ (u ++ after)) left)
    (hmid : Written [.sign op.sign] mid (u ++ after))
    (hright : Found source b.tighter (before ++ (taken ++ mid)) u after right) (hop : op.band = b)
    (happly : op ≠ .apply) :
    Found source b before (taken ++ (mid ++ u)) after (Grammar.combine source left (op, right)) := by
  have hnodes := hright.nodes
  obtain ⟨⟨pre, own, post, opened, tokens, closed, rfl, hpre, hown, hpost, hderives, hspan⟩⟩ :=
    hright.frame
  simp only [List.append_assoc] at hmid
  have hfound : Found source b before (taken ++ ((mid ++ pre ++ own) ++ post)) after
      (Grammar.combine source left (op, right)) := by
    refine .attach (c := op.leftSlot) (by simpa using hleft) (hmid.append hpre |>.append hown) hpost
      ?_ ?_ ?_
    · intro ts hfirst
      have hnode : Derives b (Grammar.combine source left (op, right)) _ :=
        .operand hop happly hfirst hderives
      simpa using hnode
    · rw [Grammar.combine, Expr.span, hspan]
      simp
    · intro n hn
      rcases List.mem_append.mp hn with hmem | hmem
      · exact .inl hmem
      · exact .inr (by simpa using hnodes n hmem)
  simpa using hfound

theorem found_operand {op : BinaryOp} {u v : List Char} {left right : Expr} (hop : op.band = b)
    (happly : op ≠ .apply) (hleft : Found source op.leftSlot before u (v ++ after) left)
    (h : Behind [.sign op.sign] (Found source b.tighter) (before ++ u) v after right) :
    Found source b before (u ++ v) after (Grammar.combine source left (op, right)) := by
  obtain ⟨mid, v, rfl, hmid, hright⟩ := h
  rw [List.append_assoc] at hleft
  exact hleft.combine op hmid (by simpa using hright) hop happly

theorem found_link {op : BinaryOp} {u v : List Char} {left right : Expr} (hop : op.band = .chain)
    (happly : op ≠ .apply) (hleft : Found source .chain before u (v ++ after) left)
    (h : Behind [.sign op.sign] (Found source .tight) (before ++ u) v after right) :
    Found source .chain before (u ++ v) after
      (.binary op left right ⟨source, left.span.start, byteLength (before ++ (u ++ v))⟩) := by
  obtain ⟨mid, v, rfl, hmid, hright⟩ := h
  obtain ⟨us, hus, hderives⟩ := hright.exists_derives
  refine hleft.lengthen (hmid.append hus) (fun ts hts => ?_) rfl fun n hn => ?_
  · have hslot : op.leftSlot = .chain := BinaryOp.leftSlot_eq hop rfl
    exact .operand hop happly (hslot ▸ hts) hderives
  · rcases List.mem_append.mp hn with hmem | hmem
    · exact .inl hmem
    · exact .inr (by simpa using hright.nodes n hmem)

theorem found_apply {u v : List Char} {left right : Expr}
    (hleft : Found source .chain before u (v ++ after) left)
    (h : Between .openBracket .closeBracket (Found source .binding) (before ++ u) v after right)
    (hignored : ¬ Written ignoredColumn v after) :
    Found source .chain before (u ++ v) after
      (.binary .apply left right ⟨source, left.span.start, byteLength (before ++ (u ++ v))⟩) := by
  obtain ⟨opening, v, closing, rfl, hopen, hright, hclose⟩ := h
  obtain ⟨us, hus, hderives⟩ := hright.exists_derives
  rw [← List.append_assoc] at hopen
  have hwritten := hopen.append (hus.append hclose)
  have hne : us ≠ [.name wildcard] := by
    rintro rfl
    exact hignored hwritten
  refine hleft.lengthen hwritten (fun ts hts => .apply hts hderives hne) rfl fun n hn => ?_
  rcases List.mem_append.mp hn with hmem | hmem
  · exact .inl hmem
  · exact .inr (by simpa using hright.nodes n hmem)

/-- A node that binds names. -/
theorem found_paired {head mid : List Token} {left right : Expr}
    (h : Paired head mid (Found source .union) (Found source .binding) before taken after left right)
    (hderives : ∀ {ts us}, Derives .union left ts → Derives .binding right us →
      Derives .binding e (head ++ (ts ++ (mid ++ us))))
    (hspan : e.span = ⟨source, byteLength before, byteLength (before ++ taken)⟩)
    (hnodes : e.nodes.tail = left.nodes ++ right.nodes) :
    Found source .binding before taken after e := by
  obtain ⟨w, u, m, v, rfl, hhead, hleft, hmid, hright⟩ := h
  obtain ⟨ts, hts, hfirst⟩ := hleft.exists_derives
  obtain ⟨us, hus, hsecond⟩ := hright.exists_derives
  rw [← List.append_assoc m v after] at hhead hts
  rw [← List.append_assoc] at hhead
  have hwritten := hhead.append (hts.append (hmid.append hus))
  refine .of_whole hwritten (hderives hfirst hsecond) hspan fun n hn => ?_
  rw [hnodes] at hn
  rcases List.mem_append.mp hn with hmem | hmem
  · simpa using hleft.nodes n hmem
  · simpa using hright.nodes n hmem

theorem rules_found : Rules source (Found source) where
  leaf := found_leaf
  property := found_property
  paren := found_paren
  tighter hb h := h.loosen hb
  layout h hw := h.layout hw
  leading := found_leading
  operand := found_operand
  link := found_link
  ignore hleft hwritten :=
    hleft.lengthen hwritten (fun _ hts => .ignore hts) rfl fun _ hn => .inl hn
  apply := found_apply
  comprehension h := by
    refine found_paired h (fun hconstraint hbody => ?_) rfl rfl
    simpa using Derives.comprehension hconstraint hbody
  letIn h := found_paired h (fun hvalue hbody => .letIn hvalue hbody) rfl rfl

/-- A query is derived from what it was read from, and so is each of its nodes whose text has
balanced parentheses. -/
theorem run_query {next : Cursor}
    (hrun : (query source ⟨source.toList, 0⟩).value = some (e, next)) :
    (∃ ts, Written ts source.toList [] ∧ Derives .binding e ts) ∧
      ∀ n ∈ e.nodes, Quotable source source.toList n := by
  obtain ⟨w, u, hsource, hw, hfound⟩ := rules_found.query hrun
  obtain ⟨ts, hts, hderives⟩ := hfound.exists_derives
  rw [hsource]
  refine ⟨⟨ts, ?_, hderives⟩, fun n hn => ?_⟩
  · exact (show Written [] w (u ++ []) by simpa using hw).append hts
  · simpa using hfound.nodes n hn

end RelQuery.Grammar
