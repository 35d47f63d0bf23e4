import LayeredViews.Proofs.Render.Serving

/-!
# Telling — what a computation adds to a journal

`Tells journal A x` says that `x` only adds to a journal, and only what `A` allows.  Finding and compiling views
tells of nothing else (`Event.Prepares`).  What a render may tell depends on the depth of its partial views; a
`Tale` allows what the steps of a render tell at each depth, and then allows all that the render tells
(`Tale.run`).
-/

namespace LayeredViews

/-! ### What is told -/

/-- Adds only such entries to a journal that the state keeps. -/
def Tells {ε σ α κ : Type} (journal : σ → History κ) (A : κ → Prop) (x : EStateM ε σ α) : Prop :=
  ∀ st, ∃ told, (journal (ending x st).2).toList = (journal st).toList ++ told ∧ ∀ e ∈ told, A e

namespace Tells

variable {ε ε' σ α β κ : Type} {journal : σ → History κ} {A B : κ → Prop}

theorem nothing {x : EStateM ε σ α} (hx : ∀ st, journal (ending x st).2 = journal st) :
    Tells journal A x := by
  intro st
  rw [hx st]
  exact ⟨[], (List.append_nil _).symm, by simp⟩

theorem pure (a : α) : Tells journal A (Pure.pure a : EStateM ε σ α) :=
  nothing fun _ => rfl

theorem throw (e : ε) : Tells journal A (MonadExcept.throw e : EStateM ε σ α) :=
  nothing fun _ => rfl

theorem bind {x : EStateM ε σ α} {f : α → EStateM ε σ β} (hx : Tells journal A x)
    (hf : ∀ a, Tells journal A (f a)) : Tells journal A (x >>= f) := by
  intro st
  obtain ⟨told, htold, hA⟩ := hx st
  rw [ending_bind]
  rcases hr : ending x st with ⟨e | a, st'⟩ <;> rw [hr] at htold
  · exact ⟨told, htold, hA⟩
  · obtain ⟨more, hmore, hB⟩ := hf a st'
    refine ⟨told ++ more, ?_, fun e he => (List.mem_append.mp he).elim (hA e) (hB e)⟩
    rw [← List.append_assoc, ← htold]
    exact hmore

theorem adaptExcept {x : EStateM ε σ α} (hx : Tells journal A x) (f : ε → ε') :
    Tells journal A (x.adaptExcept f) := by
  intro st
  rw [ending_adaptExcept]
  exact hx st

theorem imp {x : EStateM ε σ α} (hx : Tells journal A x) (himp : ∀ e, A e → B e) : Tells journal B x := by
  intro st
  obtain ⟨told, htold, hA⟩ := hx st
  exact ⟨told, htold, fun e he => himp e (hA e he)⟩

/-- A computation that tells one thing. -/
theorem one {x : EStateM ε σ α} {e : κ} (hx : ∀ st, journal (ending x st).2 = (journal st).push e)
    (he : A e) : Tells journal A x := by
  intro st
  rw [hx st]
  exact ⟨[e], History.toList_push _ _, by simpa using he⟩

/-- All that a computation has told when it started with an empty journal. -/
theorem of_empty {x : EStateM ε σ α} (hx : Tells journal A x) {st : σ} (hst : (journal st).toList = []) :
    ∀ e ∈ (journal (ending x st).2).toList, A e := by
  obtain ⟨told, htold, hA⟩ := hx st
  rw [htold, hst]
  exact hA

end Tells

/-- The journal of a render. -/
def State.journal (st : State) : History Event := st.bench.journal

/-- Tells of a view that is looked up, read or compiled, and looked up at such an address. -/
inductive Event.Prepares (A : Address → Prop) : Event → Prop where
  | lookup {a : Address} (ha : A a) : Prepares A (.lookup a)
  | read (template : String) : Prepares A (.read template)
  | compiled (template : String) : Prepares A (.compiled template)

variable {A : Address → Prop}

/-! ### Finding and compiling views -/

namespace Compose

theorem readSource_tells (view : View) : Tells Bench.journal (Event.Prepares A) (Bench.readSource view) :=
  .one (fun b => by rw [Bench.ending_readSource]; rfl) (.read view.fullName)

theorem compileSource_tells (view : View) (source : String) :
    Tells Bench.journal (Event.Prepares A) (Bench.compileSource view source) :=
  .one (fun b => by rw [Bench.ending_compileSource]; rfl) (.compiled view.fullName)

theorem fetch_tells (template source : String) :
    Tells Bench.journal (Event.Prepares A) (fetch template source) := by
  refine .nothing fun b => ?_
  unfold ending fetch
  cases b.cache <;> rfl

theorem pageOf_tells (view : View) : Tells Bench.journal (Event.Prepares A) (pageOf view) := by
  refine ((readSource_tells view).adaptExcept _).bind fun source => ?_
  refine (fetch_tells view.fullName source).bind fun page? => ?_
  cases page? with
  | some page => exact .pure page
  | none =>
    refine ((compileSource_tells view source).adaptExcept _).bind fun page => ?_
    have hkeep : Tells Bench.journal (Event.Prepares A) (keep view.fullName source page) := .nothing fun _ => rfl
    exact hkeep.bind fun _ => .pure page

theorem layersOf_tells (views : List View) : Tells Bench.journal (Event.Prepares A) (layersOf views) := by
  induction views with
  | nil => exact .pure []
  | cons view views ih =>
    cases views with
    | nil => exact (pageOf_tells view).bind fun page => .pure _
    | cons next others => exact (pageOf_tells view).bind fun page => ih.bind fun layers => .pure _

end Compose

theorem State.search_tells {α : Type} (raises : Nat → Address → Bool) {x : Search α}
    (hx : ∀ a ∈ (ending x .empty).2.toList, A a) :
    Tells State.journal (Event.Prepares A) (State.search raises x) := by
  intro st
  rw [State.ending_search]
  refine ⟨(ending x .empty).2.toList.map .lookup, ?_, fun e he => ?_⟩
  · dsimp only
    clear hx
    induction (ending x .empty).2.toList generalizing st with
    | nil => exact (List.append_nil _).symm
    | cons a asked ih =>
      have hfirst : (noteLookup raises st a).journal.toList = st.journal.toList ++ [.lookup a] :=
        History.toList_push _ _
      rw [List.foldl_cons, ih, hfirst, List.append_assoc]
      rfl
  · obtain ⟨a, ha, rfl⟩ := List.mem_map.mp he
    exact .lookup (hx a ha)

theorem State.compose_tells {α : Type} {x : Compose α} (hx : Tells Bench.journal (Event.Prepares A) x) :
    Tells State.journal (Event.Prepares A) (State.compose x) := by
  intro st
  rw [State.ending_compose]
  exact hx st.bench

namespace Session

variable (s : Session)

/-- The address is looked up to find the view or some partial view. -/
def LooksUp (a : Address) : Prop :=
  a ∈ (ending (Layering.resolve s.finder s.settings.layoutName s.view) .empty).2.toList ∨
    ∃ name, a ∈ (ending (s.resolvePartial name) .empty).2.toList

theorem partialLayers_tells (name : String) :
    Tells State.journal (Event.Prepares s.LooksUp) (s.partialLayers name) :=
  ((State.search_tells s.raises fun _ ha => Or.inr ⟨name, ha⟩).adaptExcept _).bind fun layering =>
    (State.compose_tells (Compose.layersOf_tells layering.members)).adaptExcept _

theorem fatal_tells {α : Type} (e : RenderError) :
    Tells State.journal (Event.Prepares A) (fatal e : Run α) :=
  .nothing fun _ => rfl

theorem attempt_tells {ε α : Type} {x : EStateM ε State α} (hx : Tells State.journal (Event.Prepares A) x) :
    Tells State.journal (Event.Prepares A) (attempt x) := by
  intro st
  rw [ending_attempt]
  exact hx st

theorem resolveUnless_tells (cancelled : Bool) :
    Tells State.journal (Event.Prepares s.LooksUp) (s.resolveUnless cancelled) := by
  unfold resolveUnless
  split
  · exact fatal_tells _
  · refine (attempt_tells (State.search_tells s.raises fun _ => Or.inl)).bind fun result => ?_
    rcases result with (_ | _) | layering
    · exact fatal_tells _
    · exact fatal_tells _
    · exact .pure layering

theorem resolve_tells : Tells State.journal (Event.Prepares s.LooksUp) s.resolve := by
  intro st
  rw [ending_resolve]
  exact s.resolveUnless_tells _ { st with phase := .resolving }

theorem prepare_tells : Tells State.journal (Event.Prepares s.LooksUp) s.prepare := by
  have henter : Tells State.journal (Event.Prepares s.LooksUp) (enter .composing) := .nothing fun _ => rfl
  refine s.resolve_tells.bind fun layering => henter.bind fun _ => attempt_tells ?_
  exact State.compose_tells (Compose.layersOf_tells layering.members)

/-! ### Whole renders -/

/-- Allows what a render may tell, by the depth of partial views at which it is told or any below. -/
structure Tale (E : Nat → Event → Prop) : Prop where
  prepares : ∀ depth {e}, e.Prepares s.LooksUp → E depth e
  started : ∀ template {depth}, depth ≤ s.settings.maxPartialDepth → E depth (.started template depth)
  refused : ∀ depth, E depth .refused
  deeper : ∀ {depth e}, E (depth + 1) e → E depth e

namespace Tale

variable {s} {E : Nat → Event → Prop} (h : s.Tale E)
include h

theorem closedOn :
    Render.ClosedOn s (fun _ _ => True) fun _ depth => Tells State.journal (E depth) where
  known_mono _ _ := trivial
  pure _ _ _ a := .pure a
  bind := .bind
  fault _ _ := .throw _
  withBag _ _ _ _ hf st := hf st.bag st
  setBag _ _ _ := .nothing fun _ => rfl
  write _ _ := .nothing fun st => by rw [Render.ending_writeText]; rfl
  check _ depth st := by
    rw [Render.ending_checkCancelled]
    split_ifs
    · exact ⟨[.refused], History.toList_push _ _, by simpa using h.refused depth⟩
    · exact ⟨[], (List.append_nil _).symm, by simp⟩
  start {told depth layer _ _} _ hdepth hx := by
    refine .bind (.one (fun _ => rfl) (h.started layer.template hdepth)) fun _ => ?_
    exact hx (.started layer.template depth :: told) (List.subset_cons_self _ _) List.mem_cons_self
  partialLayers {told depth name _ _} _ _ hf := by
    refine ((s.partialLayers_tells name).imp fun e he => h.prepares depth he).bind fun layers => ?_
    exact (hf told layers fun _ _ => trivial).imp fun e he => h.deeper he

theorem layers {depth levels : Nat} (hdepth : depth + levels = s.settings.maxPartialDepth)
    (layers : List Layer) : Tells State.journal (E depth) (Render.runLayers (s.sceneAt depth levels) layers) :=
  h.closedOn.runLayers [] (h.closedOn.sceneAt levels depth hdepth) fun _ _ => trivial

theorem execute (layers : List Layer) : Tells State.journal (E 0) (s.execute layers) := by
  intro st
  have hlayers := h.layers (Nat.zero_add _) layers { st with phase := .executing }
  unfold State.journal at hlayers ⊢
  rw [bench_execute]
  exact hlayers

/-- A render tells only what the steps of renders may tell. -/
theorem run : Tells State.journal (E 0) s.run := by
  rw [run_eq]
  refine (s.prepare_tells.imp fun e he => h.prepares 0 he).bind fun r => ?_
  cases r with
  | error c => exact .nothing fun st => congrArg Bench.journal (bench_proceed_error c st)
  | ok layers => exact h.execute layers

end Tale

end Session

end LayeredViews
