import LayeredViews.Proofs.Cache.Sound
import Mathlib.Data.List.Forall2
import Mathlib.Logic.Function.Basic

/-!
# Composing with a cache — which views are compiled, and what stays cached

Members of a layering are compiled in order, up to the first that cannot be read or does not compile.  With a sound
cache, and as long as digests tell sources apart, `layers_exact` says what comes of it: the layers or the error, the
views that have been read and compiled on the way, and each entry of the cache afterwards.
-/

namespace LayeredViews

open Template (Page)

/-! ### What is to come of it -/

/-- The entries of a cache after a view has been compiled with it.  The entry of its page is set; a view that does
not compile loses the entry under its name, and one that cannot be read changes none. -/
def View.entriesAfter (v : View) (entries : String → Option (CacheEntry Page)) :
    String → Option (CacheEntry Page) :=
  match v.source with
  | .error _ => entries
  | .ok source =>
    match Template.parse source with
    | .ok page => Function.update entries v.fullName (some ⟨Digest.ofText source, page⟩)
    | .error _ => Function.update entries v.fullName none

/-- Tells of views that are compiled in order: each of them is read, and then its source may be compiled. -/
inductive Recounts : List View → List Event → Prop where
  | nil : Recounts [] []
  | read {v : View} {views : List View} {told : List Event} (others : Recounts views told) :
    Recounts (v :: views) (.read v.fullName :: told)
  | compiled {v : View} {views : List View} {told : List Event} (others : Recounts views told) :
    Recounts (v :: views) (.read v.fullName :: .compiled v.fullName :: told)

/-- The layer is the page of the view in this role. -/
structure Layer.IsOf (role : Role) (v : View) (layer : Layer) : Prop where
  template : layer.template = v.fullName
  role : layer.role = role
  page : v.compiled = .ok layer.page

/-- These views have been compiled in order, and no others: what is told of it, and what the cache has become. -/
structure Compose.Handled (S : Set String) (views : List View) (cache : PageCache Page) (told : List Event)
    (cache' : PageCache Page) : Prop where
  sound : cache'.Sound S
  entries : cache'.entry? = views.foldl (fun entries v => v.entriesAfter entries) cache.entry?
  told : Recounts views told

/-- How compiling a layering can end: with the layers of its members in order, or with the error of the first member
that does not compile. -/
inductive Compose.EndsWith (S : Set String) (l : Layering) (cache : PageCache Page) (told : List Event)
    (cache' : PageCache Page) : Except ComposeError (List Layer) → Prop where
  | composed {layers around : List Layer} {last : Layer} (split : layers = around ++ [last])
    (layouts : List.Forall₂ (Layer.IsOf .ancestor) l.layouts around) (leaf : Layer.IsOf .leaf l.leaf last)
    (handled : Handled S l.members cache told cache') : EndsWith S l cache told cache' (.ok layers)
  | stopped {before after : List View} {v : View} {e : ComposeError} (split : l.members = before ++ v :: after)
    (compile : ∀ u ∈ before, ∃ page, u.compiled = .ok page) (error : v.compiled = .error e)
    (handled : Handled S (before ++ [v]) cache told cache') : EndsWith S l cache told cache' (.error e)

theorem Recounts.append {views others : List View} {told more : List Event} (h : Recounts views told)
    (hothers : Recounts others more) : Recounts (views ++ others) (told ++ more) := by
  induction h with
  | nil => exact hothers
  | read _ ih => exact .read ih
  | compiled _ ih => exact .compiled ih

section Entries

variable {v : View} {source : String} {page : Page} {entries : String → Option (CacheEntry Page)}

theorem View.entriesAfter_unreadable {e : ContentError} (h : v.source = .error e) :
    v.entriesAfter entries = entries := by
  simp only [entriesAfter, h]

theorem View.entriesAfter_ok (hs : v.source = .ok source) (hparse : Template.parse source = .ok page) :
    v.entriesAfter entries = Function.update entries v.fullName (some ⟨Digest.ofText source, page⟩) := by
  simp only [entriesAfter, hs, hparse]

theorem View.entriesAfter_error {ds : List Diagnostic} (hs : v.source = .ok source)
    (hparse : Template.parse source = .error ds) :
    v.entriesAfter entries = Function.update entries v.fullName none := by
  simp only [entriesAfter, hs, hparse]

/-- A view compiles exactly if it can be read and its source is a page's. -/
theorem View.compiled_eq_ok_iff :
    v.compiled = .ok page ↔ ∃ source, v.source = .ok source ∧ Template.parse source = .ok page := by
  unfold View.compiled
  rcases v.source with e | source
  · simp
  · rcases hparse : Template.parse source with ds | page' <;> simp [Except.mapError, hparse]

/-- A cache that has what it is asked for keeps it. -/
theorem PageCache.entry?_get_hit {c : PageCache Page} {template digest : String} {page : Page}
    (hit : (c.get template digest).1 = some page) :
    PageCache.entry? (c.get template digest).2 = Function.update c.entry? template (some ⟨digest, page⟩) := by
  have hentry := PageCache.get_eq_some_iff.mp hit
  ext1 other
  rw [PageCache.entry?_get, Function.update_apply]
  by_cases hsame : template = other
  · subst hsame
    simp [hentry, Option.filter]
  · simp [hsame, Ne.symm hsame]

/-- A cache that does not have what it is asked for has nothing for the template afterwards. -/
theorem PageCache.entry?_get_miss {c : PageCache Page} {template digest : String}
    (miss : (c.get template digest).1 = none) :
    PageCache.entry? (c.get template digest).2 = Function.update c.entry? template none := by
  ext1 other
  rw [PageCache.entry?_get, Function.update_apply]
  by_cases hsame : template = other
  · subst hsame
    rw [if_pos rfl, if_pos rfl]
    refine Option.filter_eq_none_iff.mpr fun entry hentry hdigest => ?_
    obtain rfl := of_decide_eq_true hdigest
    rw [PageCache.get_eq_some_iff.mpr hentry] at miss
    cases miss
  · simp [hsame, Ne.symm hsame]

end Entries

namespace Compose

variable {S : Set String} {v : View} {views : List View} {c c₁ c' : PageCache Page} {told more : List Event}

theorem Handled.append {others : List View} (h : Handled S views c told c₁) (hothers : Handled S others c₁ more c') :
    Handled S (views ++ others) c (told ++ more) c' where
  sound := hothers.sound
  entries := by rw [hothers.entries, h.entries, List.foldl_append]
  told := h.told.append hothers.told

/-! ### One view -/

theorem ending_fetch (template source : String) (c : PageCache Page) (journal : History Event) :
    ending (fetch template source) ⟨some c, journal⟩ =
      (.ok (c.get template (Digest.ofText source)).1, ⟨some (c.get template (Digest.ofText source)).2, journal⟩) :=
  rfl

/-- Compiling one view with a sound cache. -/
theorem pageOf_exact (hinj : Set.InjOn Digest.ofText S) (hview : ∀ source, v.source = .ok source → source ∈ S)
    (hc : c.Sound S) (journal : History Event) :
    ∃ c' told journal', ending (pageOf v) ⟨some c, journal⟩ = (v.compiled, ⟨some c', journal'⟩) ∧
      journal'.toList = journal.toList ++ told ∧ Handled S [v] c told c' := by
  have hread : ending (Bench.readSource v) ⟨some c, journal⟩ =
      (v.source, ⟨some c, journal.push (.read v.fullName)⟩) := Bench.ending_readSource v ⟨some c, journal⟩
  have htold : Recounts [v] [.read v.fullName] := .read .nil
  unfold pageOf
  rcases hs : v.source with e | source <;> rw [hs] at hread
  · refine ⟨c, _, journal.push (.read v.fullName), ?_, History.toList_push _ _, hc, ?_, htold⟩
    · rw [ending_bind_error (ending_adaptExcept_error hread ComposeError.content)]
      simp only [View.compiled, hs]
    · simp [View.entriesAfter_unreadable hs]
  rw [ending_bind_ok (ending_adaptExcept_ok hread ComposeError.content),
    ending_bind_ok (ending_fetch v.fullName source c (journal.push (.read v.fullName)))]
  obtain ⟨hsound, hgood⟩ := PageCache.All.get hc v.fullName (Digest.ofText source)
  rcases hasked : (c.get v.fullName (Digest.ofText source)).1 with _ | page
  · have hcompile := Bench.ending_compileSource v source
      ⟨some (c.get v.fullName (Digest.ofText source)).2, journal.push (.read v.fullName)⟩
    have hjournal : ((journal.push (.read v.fullName)).push (.compiled v.fullName)).toList =
        journal.toList ++ [.read v.fullName, .compiled v.fullName] := by simp
    have hmiss := PageCache.entry?_get_miss hasked
    rcases hparse : Template.parse source with ds | page <;> rw [hparse] at hcompile
    · refine ⟨_, _, _, ?_, hjournal, hsound, ?_, .compiled .nil⟩
      · rw [View.compiled_of_source hs, hparse]
        exact ending_bind_error (ending_adaptExcept_error hcompile ComposeError.failure) _
      · rw [hmiss]
        simp [View.entriesAfter_error hs hparse]
    · have hnew : ∃ source' ∈ S, Digest.ofText source' = Digest.ofText source ∧
          Template.parse source' = .ok page := ⟨source, hview source hs, rfl, hparse⟩
      refine ⟨PageCache.insert _ v.fullName (Digest.ofText source) page, _, _, ?_, hjournal,
        PageCache.All.insert hsound hnew, ?_, .compiled .nil⟩
      · rw [View.compiled_of_source hs, hparse]
        exact (ending_bind_ok (ending_adaptExcept_ok hcompile ComposeError.failure) _).trans rfl
      · ext1 other
        rw [PageCache.entry?_insert, hmiss]
        simp only [List.foldl_cons, List.foldl_nil, View.entriesAfter_ok hs hparse, Function.update_apply, eq_comm]
        split_ifs <;> rfl
  · -- what is cached for the digest of the source is the page of the source
    obtain ⟨source', hsource', hdigest, hparse⟩ := hgood page hasked
    obtain rfl : source' = source := hinj hsource' (hview source hs) hdigest
    refine ⟨_, _, _, ?_, History.toList_push _ _, hsound, ?_, htold⟩
    · rw [View.compiled_of_source hs, hparse]
      rfl
    · rw [PageCache.entry?_get_hit hasked]
      simp [View.entriesAfter_ok hs hparse]

/-! ### All members -/

theorem layersOf_cons (v : View) (hne : views ≠ []) :
    layersOf (v :: views) = (do
      let page ← pageOf v
      return ⟨v.fullName, .ancestor, page⟩ :: (← layersOf views)) := by
  cases views with
  | nil => exact absurd rfl hne
  | cons next others => rfl

/-- Compiling views in order ends in one of two ways. -/
theorem layersOf_endsWith (hinj : Set.InjOn Digest.ofText S) (l : Layering)
    (hviews : ∀ v ∈ l.members, ∀ source, v.source = .ok source → source ∈ S) (hc : c.Sound S)
    (journal : History Event) :
    ∃ r c' told journal', ending (layersOf l.members) ⟨some c, journal⟩ = (r, ⟨some c', journal'⟩) ∧
      journal'.toList = journal.toList ++ told ∧ EndsWith S l c told c' r := by
  obtain ⟨layouts, leaf⟩ := l
  unfold Layering.members at hviews ⊢
  dsimp only at hviews ⊢
  induction layouts generalizing c journal with
  | nil =>
    obtain ⟨c', told, journal', hend, htold, hhandled⟩ := pageOf_exact hinj (hviews leaf (by simp)) hc journal
    rw [List.nil_append, layersOf]
    rcases hcompiled : leaf.compiled with e | page <;> rw [hcompiled] at hend
    · have hsplit : Layering.members ⟨[], leaf⟩ = [] ++ leaf :: [] := rfl
      exact ⟨_, c', told, journal', ending_bind_error hend _, htold, .stopped hsplit (by simp) hcompiled hhandled⟩
    · exact ⟨_, c', told, journal', ending_bind_ok hend _, htold,
        .composed (List.nil_append _).symm .nil ⟨rfl, rfl, hcompiled⟩ hhandled⟩
  | cons v layouts ih =>
    obtain ⟨hv, hothers⟩ := List.forall_mem_cons.mp hviews
    obtain ⟨c₁, told, journal₁, hend, htold, hfirst⟩ := pageOf_exact hinj hv hc journal
    rw [List.cons_append, layersOf_cons v (by simp)]
    rcases hcompiled : v.compiled with e | page <;> rw [hcompiled] at hend
    · have hsplit : Layering.members ⟨v :: layouts, leaf⟩ = [] ++ v :: (layouts ++ [leaf]) := rfl
      exact ⟨_, c₁, told, journal₁, ending_bind_error hend _, htold, .stopped hsplit (by simp) hcompiled hfirst⟩
    obtain ⟨r, c', more, journal', hrest, hmore, hends⟩ := ih hfirst.sound journal₁ hothers
    have hall : journal'.toList = journal.toList ++ (told ++ more) := by rw [hmore, htold, List.append_assoc]
    rw [ending_bind_ok hend]
    cases hends with
    | @composed ls around last heq haround hlast hhandled =>
      have hlayer : Layer.IsOf .ancestor v ⟨v.fullName, .ancestor, page⟩ := ⟨rfl, rfl, hcompiled⟩
      have hsplit : (⟨v.fullName, .ancestor, page⟩ :: ls : List Layer) = (_ :: around) ++ [last] :=
        congrArg (_ :: ·) heq
      exact ⟨_, c', _, journal', ending_bind_ok hrest _, hall,
        .composed hsplit (.cons hlayer haround) hlast (hfirst.append hhandled)⟩
    | @stopped before after u e heq hbefore hu hhandled =>
      have hsplit : Layering.members ⟨v :: layouts, leaf⟩ = (v :: before) ++ u :: after := congrArg (v :: ·) heq
      have hbefore' : ∀ w ∈ v :: before, ∃ page, w.compiled = .ok page :=
        List.forall_mem_cons.mpr ⟨⟨page, hcompiled⟩, hbefore⟩
      exact ⟨_, c', _, journal', ending_bind_error hrest _, hall,
        .stopped hsplit hbefore' hu (hfirst.append hhandled)⟩

theorem EndsWith.ok_iff {l : Layering} {r : Except ComposeError (List Layer)} (h : EndsWith S l c told c' r) :
    (∃ ls, r = .ok ls) ↔ ∀ v ∈ l.members, ∃ page, v.compiled = .ok page := by
  cases h with
  | composed hlayers haround hlast hhandled =>
    refine iff_of_true ⟨_, rfl⟩ fun v hv => ?_
    have hboth : List.Forall₂ (fun v layer => (∃ page, v.compiled = .ok page) ∧ Layer.IsOf .ancestor v layer)
        l.layouts _ := haround.imp fun v layer h => ⟨⟨layer.page, h.page⟩, h⟩
    rcases List.mem_append.mp hv with hv | hv
    · exact ((List.forall₂_and_left _ _).mp hboth).1 v hv
    · obtain rfl := List.mem_singleton.mp hv
      exact ⟨_, hlast.page⟩
  | @stopped before after v e heq hbefore hv hhandled =>
    refine iff_of_false nofun fun hall => ?_
    have hmem : v ∈ l.members := by
      rw [heq]
      simp
    obtain ⟨page, hpage⟩ := hall v hmem
    rw [hv] at hpage
    cases hpage

/-- What compiling a layering with a sound cache comes to.  There are layers exactly if each member can be read and
its source is a page's, and then they are those of the members in order, the last one alone a leaf's.  Otherwise there
is the error of the first member of which this is not so, and no later one is read or compiled.  Either way the cache
has changed by the members up to there, one after the other, and in nothing else. -/
theorem layers_exact (hinj : Set.InjOn Digest.ofText S) {l : Layering}
    (hviews : ∀ v ∈ l.members, ∀ source, v.source = .ok source → source ∈ S) (hc : c.Sound S)
    (journal : History Event) :
    ∃ r c' told journal', ending (layers l) ⟨some c, journal⟩ = (r, ⟨some c', journal'⟩) ∧
      journal'.toList = journal.toList ++ told ∧
      ((∃ ls, r = .ok ls) ↔
        ∀ v ∈ l.members, ∃ source page, v.source = .ok source ∧ Template.parse source = .ok page) ∧
      EndsWith S l c told c' r := by
  obtain ⟨r, c', told, journal', hend, htold, hends⟩ := layersOf_endsWith hinj l hviews hc journal
  refine ⟨r, c', told, journal', hend, htold, hends.ok_iff.trans ?_, hends⟩
  refine forall₂_congr fun v _ => ?_
  rw [exists_comm]
  exact exists_congr fun page => View.compiled_eq_ok_iff

/-- A layout without tags. -/
def plainLayout : View := ⟨⟨"", "_ViewStart"⟩, "html", .text "a"⟩

/-- A page that has a malformed tag. -/
def malformedPage : View := ⟨⟨"", "page"⟩, "html", .text "\x7b\x7b bogus"⟩

/-- Has the malformed page as it was before, with the source that the layout has. -/
def staleCache : PageCache Page :=
  PageCache.empty.insert "page.html" (Digest.ofText "a") (.text "a" .done)

theorem layers_exact_of_staleCache :
    let S := { source | source = "a" ∨ source = "\x7b\x7b bogus" }
    Set.InjOn Digest.ofText S ∧ staleCache.Sound S ∧ ∃ f c' journal',
      ending (layers ⟨[plainLayout], malformedPage⟩) ⟨some staleCache, .empty⟩ =
          (.error (.failure f), ⟨some c', journal'⟩) ∧
        f.template = "page.html" ∧ c'.entry? "page.html" = none ∧
          c'.entry? "_ViewStart.html" = some ⟨Digest.ofText "a", .text "a" .done⟩ := by
  intro S
  have hne : Digest.ofText "a" ≠ Digest.ofText "\x7b\x7b bogus" := by decide +kernel
  have hinj : Set.InjOn Digest.ofText S := by
    rintro source (rfl | rfl) source' (rfl | rfl) heq
    · rfl
    · exact absurd heq hne
    · exact absurd heq.symm hne
    · rfl
  have hplain : Template.parse "a" = .ok (.text "a" .done) := by decide +kernel
  obtain ⟨ds, hbogus⟩ : ∃ ds, Template.parse "\x7b\x7b bogus" = .error ds := ⟨_, rfl⟩
  have hlayout : plainLayout.source = .ok "a" := rfl
  have hpage : malformedPage.source = .ok "\x7b\x7b bogus" := rfl
  have hlayoutName : plainLayout.fullName = "_ViewStart.html" := rfl
  have hpageName : malformedPage.fullName = "page.html" := rfl
  have hsound : staleCache.Sound S := PageCache.All.insert PageCache.empty_sound ⟨"a", Or.inl rfl, rfl, hplain⟩
  have hviews : ∀ v ∈ Layering.members ⟨[plainLayout], malformedPage⟩, ∀ source,
      v.source = .ok source → source ∈ S := by
    intro v hv source hsource
    rcases List.mem_cons.mp hv with rfl | hv
    · exact Or.inl (Except.ok.inj hsource).symm
    · obtain rfl := List.mem_singleton.mp hv
      exact Or.inr (Except.ok.inj hsource).symm
  refine ⟨hinj, hsound, ?_⟩
  obtain ⟨r, c', told, journal', hend, -, hok, hends⟩ := layers_exact hinj hviews hsound .empty
  have hfails : malformedPage.compiled = .error (.failure ⟨"page.html", .compilation, ds⟩) := by
    rw [View.compiled_of_source hpage, hbogus, hpageName]
    rfl
  cases hends with
  | composed =>
    obtain ⟨source, page, hsource, hparse⟩ := hok.mp ⟨_, rfl⟩ malformedPage (by simp [Layering.members])
    rw [View.compiled_eq_ok_iff.mpr ⟨source, hsource, hparse⟩] at hfails
    cases hfails
  | @stopped before after v e heq hbefore hv hhandled =>
    have hcompiled := View.compiled_eq_ok_iff.mpr ⟨"a", hlayout, hplain⟩
    rcases before with _ | ⟨u, before⟩
    · obtain rfl := (List.cons.inj heq).1
      rw [hcompiled] at hv
      cases hv
    obtain ⟨rfl, hrest⟩ := List.cons.inj heq
    rcases before with _ | ⟨w, before⟩
    swap
    · simp at hrest
    obtain ⟨rfl, rfl⟩ := List.cons.inj hrest
    obtain rfl := Except.error.inj (hfails.symm.trans hv)
    have hentries := hhandled.entries
    simp only [List.cons_append, List.nil_append, List.foldl_cons, List.foldl_nil,
      View.entriesAfter_ok hlayout hplain, View.entriesAfter_error hpage hbogus, hlayoutName, hpageName] at hentries
    refine ⟨_, c', journal', hend, rfl, ?_, ?_⟩
    · rw [hentries, Function.update_self]
    · rw [hentries, Function.update_of_ne (by decide), Function.update_self]

end Compose

end LayeredViews
