import RelQuery.Proofs.Grammar.Yielding

/-!
# Parsers in step

Two parsers are in step if from every place in the source they make the same visits, and either both
fail or both stop at one place, with values that are related.  What one combinator makes of parsers
in step is in step again.
-/

namespace RelQuery.Grammar

open Text (byteLength)

variable {source : String}

/-! ## Places in a source -/

/-- What is to come at a place is the rest of the source. -/
def Within (source : String) (cursor : Cursor) : Prop :=
  ∃ before, source.toList = before ++ cursor.rest ∧ cursor.offset = byteLength before

theorem within_start (source : String) : Within source ⟨source.toList, 0⟩ :=
  ⟨[], rfl, rfl⟩

/-- Two offsets cut a piece out of the source. -/
def Cuts (source : String) (start stop : Nat) (piece : List Char) : Prop :=
  ∃ before after, source.toList = before ++ (piece ++ after) ∧ start = byteLength before ∧
    stop = byteLength (before ++ piece)

theorem Cuts.text_eq {start stop : Nat} {piece : List Char} (h : Cuts source start stop piece) :
    Span.text ⟨source, start, stop⟩ = String.ofList piece := by
  obtain ⟨before, after, hsource, rfl, rfl⟩ := h
  simp only [Span.text, hsource, Text.sliceBytes?_append]

/-- Signs of one byte each are cut off at both ends. -/
theorem Cuts.enclosed {start stop : Nat} {first last : Char} {body : List Char}
    (h : Cuts source start stop (first :: (body ++ [last]))) (hfirst : first.utf8Size = 1)
    (hlast : last.utf8Size = 1) : Cuts source (start + 1) (stop - 1) body := by
  obtain ⟨before, after, hsource, rfl, rfl⟩ := h
  refine ⟨before ++ [first], last :: after, by simp [hsource], ?_, ?_⟩
  · simp [byteLength, hfirst]
  · simp [byteLength, hfirst, hlast]
    omega

namespace Parser

variable {α β γ δ : Type}

/-! ## Agreement -/

/-- Two runs make the same visits, and fail both or stop at one place. -/
inductive Agree (source : String) (R : α → β → Cursor → Prop) : Outcome α → Outcome β → Prop where
  | fails (visits : List Visit) : Agree source R ⟨none, visits⟩ ⟨none, visits⟩
  | reads {a : α} {b : β} {next : Cursor} (visits : List Visit) (hnext : Within source next)
      (hR : R a b next) : Agree source R ⟨some (a, next), visits⟩ ⟨some (b, next), visits⟩

section Agreement

variable {R : α → β → Cursor → Prop} {S : γ → δ → Cursor → Prop} {x : Outcome α} {y : Outcome β}
variable {p : Parser α} {q : Parser β} {cursor : Cursor}

theorem Agree.isSome_eq (h : Agree source R x y) : x.value.isSome = y.value.isSome := by
  cases h <;> rfl

theorem Agree.exists_of_value {a : α} {next : Cursor} (h : Agree source R x y)
    (hx : x.value = some (a, next)) : ∃ b, y.value = some (b, next) ∧ R a b next := by
  cases h with
  | fails visits => cases hx
  | @reads _ b _ visits hnext hR =>
      cases hx
      exact ⟨b, rfl, hR⟩

theorem Agree.imp {R' : α → β → Cursor → Prop} (h : Agree source R x y)
    (himp : ∀ a b next, R a b next → R' a b next) : Agree source R' x y := by
  cases h with
  | fails visits => exact .fails visits
  | reads visits hnext hR => exact .reads visits hnext (himp _ _ _ hR)

theorem Agree.behind (h : Agree source R x y) (visits : List Visit) :
    Agree source R ⟨x.value, visits ++ x.visits⟩ ⟨y.value, visits ++ y.visits⟩ := by
  cases h with
  | fails inner => exact .fails _
  | reads inner hnext hR => exact .reads _ hnext hR

theorem Agree.bind {f : α → Parser γ} {g : β → Parser δ} (h : Agree source R (p cursor) (q cursor))
    (hnext : ∀ a b next, Within source next → R a b next → Agree source S (f a next) (g b next)) :
    Agree source S ((p >>= f) cursor) ((q >>= g) cursor) := by
  change Agree source S (p.andThen f cursor) (q.andThen g cursor)
  unfold andThen
  generalize p cursor = x at h ⊢
  generalize q cursor = y at h ⊢
  cases h with
  | fails visits => exact .fails visits
  | reads visits hwithin hR => exact (hnext _ _ _ hwithin hR).behind visits

theorem Agree.orElse {p' : Parser α} {q' : Parser β} (h : Agree source R (p cursor) (q cursor))
    (h' : Agree source R (p' cursor) (q' cursor)) :
    Agree source R ((p <|> p') cursor) ((q <|> q') cursor) := by
  change Agree source R (p.orElse p' cursor) (q.orElse q' cursor)
  unfold Parser.orElse
  generalize p cursor = x at h ⊢
  generalize q cursor = y at h ⊢
  cases h with
  | fails visits => exact h'.behind visits
  | reads visits hwithin hR => exact .reads visits hwithin hR

theorem Agree.rule (expectation : Expectation) (h : Agree source R (p cursor) (q cursor)) :
    Agree source R (rule expectation p cursor) (rule expectation q cursor) := by
  unfold Parser.rule
  generalize p cursor = x at h ⊢
  generalize q cursor = y at h ⊢
  cases h with
  | fails visits => exact .fails _
  | reads visits hwithin hR => exact .reads _ hwithin hR

theorem agree_pure {a : γ} {b : δ} (hcursor : Within source cursor) (h : S a b cursor) :
    Agree source S ((pure a : Parser γ) cursor) ((pure b : Parser δ) cursor) :=
  .reads [] hcursor h

/-- Values that are made with the offset behind them. -/
theorem Agree.stop {f : α → Nat → γ} {g : β → Nat → δ} (h : Agree source R (p cursor) (q cursor))
    (himp : ∀ a b next, R a b next → S (f a next.offset) (g b next.offset) next) :
    Agree source S ((p >>= fun a => here >>= fun stop => pure (f a stop)) cursor)
      ((q >>= fun b => here >>= fun stop => pure (g b stop)) cursor) :=
  h.bind fun a b next hnext hR => agree_pure hnext (himp a b next hR)

theorem bind_here_pure (q : Parser β) : (q >>= fun b => here >>= fun _ => pure b) = q := by
  funext cursor
  change q.andThen _ cursor = _
  unfold andThen
  generalize q cursor = y
  obtain ⟨_ | ⟨b, next⟩, visits⟩ := y
  · rfl
  · exact congrArg _ (List.append_nil visits)

/-- Only the first run makes its value with the offset behind it. -/
theorem Agree.stop_left {f : α → Nat → γ} {S : γ → β → Cursor → Prop}
    (h : Agree source R (p cursor) (q cursor))
    (himp : ∀ a b next, R a b next → S (f a next.offset) b next) :
    Agree source S ((p >>= fun a => here >>= fun stop => pure (f a stop)) cursor) (q cursor) := by
  rw [← bind_here_pure q]
  exact h.stop himp

/-- Only the second run makes its value with the offset behind it. -/
theorem Agree.stop_right {g : β → Nat → δ} {S : α → δ → Cursor → Prop}
    (h : Agree source R (p cursor) (q cursor))
    (himp : ∀ a b next, R a b next → S a (g b next.offset) next) :
    Agree source S (p cursor) ((q >>= fun b => here >>= fun stop => pure (g b stop)) cursor) := by
  rw [← bind_here_pure p]
  exact h.stop himp

theorem Agree.map_left {f : α → γ} {S : γ → β → Cursor → Prop}
    (h : Agree source R (p cursor) (q cursor))
    (himp : ∀ a b next, R a b next → S (f a) b next) :
    Agree source S ((p >>= fun a => pure (f a)) cursor) (q cursor) := by
  have hstop : Agree source S ((p >>= fun a => here >>= fun _ => pure (f a)) cursor) (q cursor) :=
    h.stop_left himp
  exact hstop

theorem Agree.map_right {g : β → δ} {S : α → δ → Cursor → Prop}
    (h : Agree source R (p cursor) (q cursor))
    (himp : ∀ a b next, R a b next → S a (g b) next) :
    Agree source S (p cursor) ((q >>= fun b => pure (g b)) cursor) := by
  have hstop : Agree source S (p cursor) ((q >>= fun b => here >>= fun _ => pure (g b)) cursor) :=
    h.stop_right himp
  exact hstop

end Agreement

/-! ## Parsers in step -/

/-- Two parsers agree at every place of the source. -/
def InStep (source : String) (p : Parser α) (q : Parser β)
    (R : Cursor → α → β → Cursor → Prop) : Prop :=
  ∀ cursor, Within source cursor → Agree source (R cursor) (p cursor) (q cursor)

variable {p : Parser α} {q : Parser β} {R : Cursor → α → β → Cursor → Prop}

theorem InStep.orElse {p' : Parser α} {q' : Parser β} (h : InStep source p q R)
    (h' : InStep source p' q' R) : InStep source (p <|> p') (q <|> q') R :=
  fun cursor hcursor => (h cursor hcursor).orElse (h' cursor hcursor)

theorem InStep.imp {R' : Cursor → α → β → Cursor → Prop} (h : InStep source p q R)
    (himp : ∀ cursor a b next, R cursor a b next → R' cursor a b next) : InStep source p q R' :=
  fun cursor hcursor => (h cursor hcursor).imp (himp cursor)

theorem InStep.map (h : InStep source p q R) {S : Cursor → γ → δ → Cursor → Prop} {f : α → γ}
    {g : β → δ} (himp : ∀ cursor a b next, R cursor a b next → S cursor (f a) (g b) next) :
    InStep source (p >>= fun a => pure (f a)) (q >>= fun b => pure (g b)) S :=
  fun cursor hcursor => (h cursor hcursor).bind fun a b next hnext hR =>
    agree_pure hnext (himp cursor a b next hR)

theorem InStep.map_left (h : InStep source p q R) {S : Cursor → γ → β → Cursor → Prop} {f : α → γ}
    (himp : ∀ cursor a b next, R cursor a b next → S cursor (f a) b next) :
    InStep source (p >>= fun a => pure (f a)) q S :=
  fun cursor hcursor => (h cursor hcursor).map_left (himp cursor)

theorem InStep.map_right (h : InStep source p q R) {S : Cursor → α → δ → Cursor → Prop} {g : β → δ}
    (himp : ∀ cursor a b next, R cursor a b next → S cursor a (g b) next) :
    InStep source p (q >>= fun b => pure (g b)) S :=
  fun cursor hcursor => (h cursor hcursor).map_right (himp cursor)

theorem inStep_layout : InStep source layout layout fun _ _ _ _ => True := by
  rintro ⟨rest, offset⟩ ⟨before, hsource, rfl⟩
  obtain ⟨w, after, stop, rfl, -, -, hskip⟩ := exists_skipLayout false (byteLength before) rest
  refine .reads [] ⟨before ++ w, ?_, ?_⟩ trivial
  · simp [hsource, hskip]
  · simp [hskip]

theorem inStep_scanning {scan : List Char → Option (List Char × List Char)} {T : List Char → Prop}
    (hscan : ∀ rest taken after, scan rest = some (taken, after) → rest = taken ++ after ∧ T taken) :
    InStep source (scanning scan) (scanning scan) fun start taken taken' next =>
      taken = taken' ∧ T taken ∧ Cuts source start.offset next.offset taken := by
  rintro ⟨rest, offset⟩ ⟨before, hsource, rfl⟩
  unfold scanning
  cases hfound : scan rest with
  | none => exact .fails []
  | some found =>
      obtain ⟨taken, after⟩ := found
      obtain ⟨rfl, hT⟩ := hscan rest taken after hfound
      refine .reads [] ⟨before ++ taken, ?_, ?_⟩ ⟨rfl, hT, before, after, hsource, rfl, ?_⟩
      · simp [hsource, Cursor.advance]
      · simp [Cursor.advance]
      · simp [Cursor.advance]

theorem inStep_symbol (text : String) :
    InStep source (symbol text) (symbol text) fun start _ _ next =>
      Cuts source start.offset next.offset text.toList := by
  have hscan : InStep source
      (scanning fun cs => (text.toList.isPrefixOf? cs).map fun rest => (text.toList, rest))
      (scanning fun cs => (text.toList.isPrefixOf? cs).map fun rest => (text.toList, rest))
      fun start taken taken' next => taken = taken' ∧ taken = text.toList ∧
        Cuts source start.offset next.offset taken := by
    refine inStep_scanning fun rest taken after hscan => ?_
    obtain ⟨rest', hsplit, heq⟩ := Option.map_eq_some_iff.mp hscan
    cases heq
    exact ⟨(List.isPrefixOf?_eq_some_iff_append_eq.mp hsplit).symm, rfl⟩
  refine hscan.map ?_
  rintro cursor _ _ next ⟨-, rfl, hcuts⟩
  exact hcuts

section Values

variable {I : α → β → Prop}

theorem InStep.behindLayout (h : InStep source p q fun _ a b _ => I a b) :
    InStep source (layout >>= fun _ => p) (layout >>= fun _ => q) fun _ a b _ => I a b :=
  fun cursor hcursor => (inStep_layout cursor hcursor).bind fun _ _ next hnext _ => h next hnext

theorem InStep.behind (text : String) (h : InStep source p q fun _ a b _ => I a b) :
    InStep source (symbol text >>= fun _ => layout >>= fun _ => p)
      (symbol text >>= fun _ => layout >>= fun _ => q) fun _ a b _ => I a b :=
  fun cursor hcursor => (inStep_symbol text cursor hcursor).bind fun _ _ next hnext _ =>
    h.behindLayout next hnext

theorem InStep.between (opening closing : String) {J : γ → δ → Prop} {f : α → γ} {g : β → δ}
    (h : InStep source p q fun _ a b _ => I a b) (himp : ∀ a b, I a b → J (f a) (g b)) :
    InStep source
      (symbol opening >>= fun _ => layout >>= fun _ => p >>= fun a => layout >>= fun _ =>
        symbol closing >>= fun _ => pure (f a))
      (symbol opening >>= fun _ => layout >>= fun _ => q >>= fun b => layout >>= fun _ =>
        symbol closing >>= fun _ => pure (g b))
      fun _ a b _ => J a b := by
  refine InStep.behind opening fun cursor hcursor => ?_
  refine (h cursor hcursor).bind fun a b next hnext hI => ?_
  refine (inStep_layout next hnext).bind fun _ _ next hnext _ => ?_
  refine (inStep_symbol closing next hnext).bind fun _ _ next hnext _ => ?_
  exact agree_pure hnext (himp a b hI)

end Values

/-! ## Options and items -/

theorem InStep.maybe (h : InStep source p q R) :
    InStep source (maybe p) (maybe q) fun start a? b? next =>
      (∃ a b, a? = some a ∧ b? = some b ∧ R start a b next) ∨ a? = none ∧ b? = none := by
  intro cursor hcursor
  refine Agree.orElse ?_ (agree_pure hcursor (.inr ⟨rfl, rfl⟩))
  exact (h cursor hcursor).bind fun a b next hnext hR =>
    agree_pure hnext (.inl ⟨a, b, rfl, rfl, hR⟩)

section Items

variable {item : Parser α} {item' : Parser β} {I : α → β → Prop}

theorem inStep_nil :
    InStep source (succeed []) (succeed []) fun _ as bs _ => List.Forall₂ I as bs :=
  fun _ hcursor => .reads [] hcursor .nil

theorem InStep.cons (hitem : InStep source item item' fun _ a b _ => I a b)
    {rest : Parser (List α)} {rest' : Parser (List β)}
    (hrest : InStep source rest rest' fun _ as bs _ => List.Forall₂ I as bs) :
    InStep source (item >>= fun first => rest >>= fun rest => pure (first :: rest))
      (item' >>= fun first => rest' >>= fun rest => pure (first :: rest))
      fun _ as bs _ => List.Forall₂ I as bs := by
  intro cursor hcursor
  refine (hitem cursor hcursor).bind fun a b next hnext hI => ?_
  refine (hrest next hnext).bind fun as bs next hnext hall => ?_
  exact agree_pure hnext (.cons hI hall)

theorem inStep_further (hitem : InStep source item item' fun _ a b _ => I a b) (fuel : Nat) :
    InStep source (further item fuel) (further item' fuel) fun _ as bs _ => List.Forall₂ I as bs := by
  induction fuel with
  | zero => exact inStep_nil
  | succ fuel ih => exact (hitem.cons ih).behindLayout.orElse inStep_nil

/-- Rows of items are in step if the items are. -/
theorem inStep_items (hitem : InStep source item item' fun _ a b _ => I a b) :
    InStep source (items item) (items item') fun _ as bs _ => List.Forall₂ I as bs := by
  have hall : InStep source (allFurther item) (allFurther item') fun _ as bs _ =>
      List.Forall₂ I as bs :=
    fun cursor hcursor => inStep_further hitem cursor.rest.length cursor hcursor
  exact ((hitem.cons hall).orElse inStep_nil).behindLayout

end Items

end Parser

end RelQuery.Grammar
