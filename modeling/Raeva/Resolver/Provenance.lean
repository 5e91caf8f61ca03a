import Raeva.Resolver.Machine

/-!
# Where candidates and queued declarations come from

A candidate of a group was a candidate before, possibly reloaded or turned into
a shadow, or is a version of a declaration that joined.  A queued declaration
is declared by the model of a candidate.  The cache of relocations holds what
lookups found.
-/

namespace Raeva

open List

namespace Walk

/-- A candidate of a group or the winner of one. -/
def Knows (w : Walk) (c : Candidate) : Prop :=
  w.Won c ∨ ∃ k, w.Holds k c

/-- No candidate and no queued declaration is new. -/
structure Inherits (w w' : Walk) : Prop where
  candidate : ∀ k c, w'.Holds k c → ∃ k₀ c₀, w.Holds k₀ c₀ ∧ c.ComesFrom c₀
  won : ∀ c, w'.Won c → ∃ c₀, w.Knows c₀ ∧ c.ComesFrom c₀
  queue_eq : w'.queue = w.queue
  walkLoads_eq : w'.walkLoads = w.walkLoads
  relocations_eq : w'.relocations = w.relocations

namespace Inherits

variable {w w₁ w' : Walk}

theorem of_eq (hselected : w'.selected = w.selected) (hqueue : w'.queue = w.queue)
    (hloads : w'.walkLoads = w.walkLoads) (hrelocations : w'.relocations = w.relocations) :
    Inherits w w' :=
  ⟨fun k c hc => ⟨k, c, by rwa [Holds, hselected] at hc, .refl c⟩,
    fun c hc => ⟨c, .inl (by rwa [Won, hselected] at hc), .refl c⟩, hqueue, hloads, hrelocations⟩

theorem refl (w : Walk) : Inherits w w :=
  of_eq rfl rfl rfl rfl

theorem trans (h : Inherits w w₁) (h' : Inherits w₁ w') : Inherits w w' where
  candidate k c hc := by
    obtain ⟨k₁, c₁, hc₁, hfrom⟩ := h'.candidate k c hc
    obtain ⟨k₀, c₀, hc₀, hfrom'⟩ := h.candidate k₁ c₁ hc₁
    exact ⟨k₀, c₀, hc₀, hfrom.trans hfrom'⟩
  won c hc := by
    obtain ⟨c₁, hc₁ | ⟨k₁, hc₁⟩, hfrom⟩ := h'.won c hc
    · obtain ⟨c₀, hc₀, hfrom'⟩ := h.won c₁ hc₁
      exact ⟨c₀, hc₀, hfrom.trans hfrom'⟩
    · obtain ⟨k₀, c₀, hc₀, hfrom'⟩ := h.candidate k₁ c₁ hc₁
      exact ⟨c₀, .inr ⟨k₀, hc₀⟩, hfrom.trans hfrom'⟩
  queue_eq := h'.queue_eq.trans h.queue_eq
  walkLoads_eq := h'.walkLoads_eq.trans h.walkLoads_eq
  relocations_eq := h'.relocations_eq.trans h.relocations_eq

theorem of_trims {T : CoordKey → Prop} (h : Trims T w w') : Inherits w w' where
  candidate k c hc := by
    obtain ⟨c₀, hc₀, hfrom⟩ := h.holds hc
    exact ⟨k, c₀, hc₀, hfrom⟩
  won := by
    rintro c ⟨k, s, hs, hc⟩
    obtain ⟨s₀, hs₀, htrimmed, -⟩ := h.lookup_of_lookup hs
    rw [htrimmed.eq] at hc
    exact ⟨c, .inl ⟨k, s₀, hs₀, hc⟩, .refl c⟩
  queue_eq := h.queue_eq
  walkLoads_eq := h.walkLoads_eq
  relocations_eq := h.relocations_eq

theorem setSelected {key : CoordKey} {s s' : Selected} (hs : w.selected.lookup key = some s)
    (hcandidates : ∀ c ∈ s'.candidates, c ∈ s.candidates)
    (hwinner : s'.winner = s.winner ∨ ∃ c ∈ s.candidates, s'.winner = some c) :
    Inherits w (w.setSelected key s') where
  candidate k c hc := by
    rw [holds_setSelected] at hc
    split at hc
    · exact ⟨key, c, ⟨s, hs, hcandidates c hc⟩, .refl c⟩
    · exact ⟨k, c, hc, .refl c⟩
  won := by
    rintro c ⟨k, t, ht, hc⟩
    rw [lookup_setSelected] at ht
    split at ht
    · cases ht
      rcases hwinner with hsame | ⟨best, hbest, hwon⟩
      · exact ⟨c, .inl ⟨key, s, hs, hsame ▸ hc⟩, .refl c⟩
      · rw [hwon, Option.some.injEq] at hc
        exact ⟨c, .inr ⟨key, s, hs, hc ▸ hbest⟩, .refl c⟩
    · exact ⟨c, .inl ⟨k, t, ht, hc⟩, .refl c⟩
  queue_eq := rfl
  walkLoads_eq := rfl
  relocations_eq := rfl

theorem eraseSelected (w : Walk) (key : CoordKey) : Inherits w (w.eraseSelected key) where
  candidate := by
    rintro k c ⟨s, hs, hmem⟩
    rw [lookup_eraseSelected] at hs
    split at hs
    · cases hs
    · exact ⟨k, c, ⟨s, hs, hmem⟩, .refl c⟩
  won := by
    rintro c ⟨k, s, hs, hc⟩
    rw [lookup_eraseSelected] at hs
    split at hs
    · cases hs
    · exact ⟨c, .inl ⟨k, s, hs, hc⟩, .refl c⟩
  queue_eq := rfl
  walkLoads_eq := rfl
  relocations_eq := rfl

theorem setGraph (w : Walk) (graph : Graph) : Inherits w (w.setGraph graph) :=
  of_eq rfl rfl rfl rfl

theorem retire (w : Walk) (node : ℕ) (convert : Option (ShadowOrigin × PathNode)) :
    Inherits w (w.retire node convert) := by
  have hrenew : Inherits w (w.renew node) := of_eq rfl rfl rfl rfl
  exact hrenew.trans (of_trims (retire_trims (fun _ => True) w node convert))

end Inherits

theorem union_inherits {w : Walk} (h : w.Sound) (source target : CoordKey) :
    Inherits w (w.union source target) := by
  have hregroups {g : CoordKey → CoordKey} {gone : ℕ → Prop} {w₁ : Walk}
      (hr : Regroups g gone w w₁) : Inherits w w₁ := by
    refine ⟨fun k c hc => ?_, fun c hc => ⟨c, .inl (hr.won c hc), .refl c⟩, hr.queue_eq,
      by rw [hr.frame], by rw [hr.frame]⟩
    obtain ⟨k₀, hc₀, -⟩ := hr.holds k c hc
    exact ⟨k₀, c, hc₀, .refl c⟩
  cases union_steps h source target with
  | same hgroup heq =>
    rw [heq]
    exact .refl w
  | moved w₁ hr htrims => exact (hregroups hr).trans (.of_trims (htrims fun _ => True))
  | merged w₁ dead hdead hr htrims =>
    exact ((hregroups hr).trans (.retire w₁ dead none)).trans (.of_trims (htrims fun _ => True))

theorem dropGroup_inherits (w : Walk) (key : CoordKey) : Inherits w (w.dropGroup key) := by
  unfold dropGroup
  split
  · exact .refl w
  · exact (((Inherits.eraseSelected w key).trans (.setGraph _ _)).trans (.retire _ _ none)).trans
      (.of_trims (revalidateShadows_trims (fun _ => True) _ key))

theorem giveWay_inherits {w : Walk} {key : CoordKey} {s : Selected}
    (hs : w.selected.lookup key = some s) (best : Candidate) (stops : Bool) :
    Inherits w (w.giveWay key s best stops) := by
  unfold giveWay
  simp only
  generalize hp : (fun c : Candidate => c != best &&
    (!stops || c.item.declaredAt != best.item.declaredAt || sourceLt c.source best.source)) = p
  have hset : Inherits w (w.setSelected key (s.withCandidates (s.candidates.filter p))) :=
    .setSelected hs (fun _ => mem_of_mem_filter) (.inl rfl)
  refine .trans ?_ (.of_trims ((revalidateShadows_trims (fun _ => True) _ key).trans
    (.markDirty _ _ key)))
  split
  · exact hset.trans (.setGraph _ _)
  · exact hset

theorem commit_inherits {backend : Backend} {w w' : Walk} {key : CoordKey} {winner : Candidate}
    (hwinner : w.Holds key winner) (h : w.commit backend key winner = .ok w') :
    ∃ w₁ parent generation, Inherits w w₁ ∧
      Queues (IsChild backend winner winner parent generation none) w₁ w' := by
  cases commit_steps h with
  | steps s s₁ convert project w₁ w₂ hproject hs hwon hw₁ hw₂ hqueues =>
    have hmem : winner ∈ s.candidates := by
      obtain ⟨t, ht, hmem⟩ := hwinner
      rw [hs, Option.some.injEq] at ht
      exact ht ▸ hmem
    have hset : Inherits w (w.setSelected key s₁) :=
      .setSelected hs (fun c hc => hwon.candidates_eq ▸ hc) (.inr ⟨winner, hmem, hwon.winner_eq⟩)
    have hretired : Inherits w w₁ := by
      rw [hw₁]
      exact hset.trans (.retire _ _ convert)
    have hrenamed : Inherits w w₂ := by
      rcases hw₂ with rfl | ⟨node, -, rfl⟩
      · exact hretired
      · exact hretired.trans (.setGraph _ _)
    exact ⟨_, _, _, hrenamed.trans (.of_trims (revalidateShadows_trims (fun _ => True) w₂ key)),
      hqueues⟩

end Walk

namespace Stage

/-- A candidate that was there, possibly turned into a shadow or reloaded, or a version of
a declaration in hand that may join. -/
def Source (backend : Backend) (st : Stage) (c : Candidate) : Prop :=
  (∃ k₀ c₀, st.walk.Holds k₀ c₀ ∧ (c.ComesFrom c₀ ∨ Refreshed backend c₀ c)) ∨
    ∃ r ∈ st.hand, ¬ st.walk.Below r.candidate.item.path r.candidate.key ∧ ∃ arc, c ∈ r.versions arc

/-- A declaration below such a candidate, by its own model or that of the winner with its
coordinate. -/
def Declares (backend : Backend) (st : Stage) (item : QueueItem) : Prop :=
  ∃ c reader, st.Source backend c ∧ (reader = c ∨ st.walk.Won reader ∧ reader.coord = c.coord) ∧
    ∃ parent generation shadow, Walk.IsChild backend reader c parent generation shadow item

/-- Where the candidates, the winners, the queued declarations, the hand and the cache of a
stage come from. -/
structure Origins [Lowercase] (solver : Solver) (st st' : Stage) : Prop where
  candidate : ∀ k c, st'.walk.Holds k c → st.Source solver.backend c
  won : ∀ c, st'.walk.Won c → ∃ c₀, st.walk.Knows c₀ ∧ c.ComesFrom c₀
  queued : ∀ item ∈ st'.walk.queue, item ∈ st.walk.queue ∨ st.Declares solver.backend item
  walkLoad : ∀ probes ∈ st'.walk.walkLoads, probes ∈ st.walk.walkLoads ∨
    ∀ c ∈ probes, st.Source solver.backend c
  hand : ∀ r ∈ st'.hand, r ∈ st.hand ∨
    (∃ k c, st.walk.Holds k c ∧ r.ReadFrom solver c.item c.coord) ∨
    (∃ probes ∈ st.walk.walkLoads, r ∈ ofProbes solver probes) ∨
    ∃ item ∈ st.walk.queue, r.ReadOf solver item
  relocations : st'.walk.relocations = st.walk.relocations ∨
    solver.backend.Supports st'.walk.relocations

variable [Lowercase] {solver : Solver} {w w' : Walk} {e e' : Option CoordKey}
  {hand hand' : Set Resolution} {r : Resolution} {st st' : Stage}

omit [Lowercase] in
theorem Source.of_holds {k : CoordKey} {c : Candidate} (h : w.Holds k c) :
    Source solver.backend ⟨w, e, hand⟩ c :=
  .inl ⟨k, c, h, .inl (.refl c)⟩

theorem Origins.of_inherits (h : Walk.Inherits w w') (hhand : hand' ⊆ hand) :
    Origins solver ⟨w, e, hand⟩ ⟨w', e', hand'⟩ where
  candidate k c hc := by
    obtain ⟨k₀, c₀, hc₀, hfrom⟩ := h.candidate k c hc
    exact .inl ⟨k₀, c₀, hc₀, .inl hfrom⟩
  won := h.won
  queued _ hitem := .inl (h.queue_eq ▸ hitem)
  walkLoad _ hprobes := .inl (h.walkLoads_eq ▸ hprobes)
  hand _ hr := .inl (hhand hr)
  relocations := .inl h.relocations_eq

theorem Origins.queues {w₁ : Walk} {New : QueueItem → Prop}
    (h : Origins solver ⟨w, e, hand⟩ ⟨w₁, e', hand'⟩) (hq : Walk.Queues New w₁ w')
    (hnew : ∀ item, New item → Declares solver.backend ⟨w, e, hand⟩ item) :
    Origins solver ⟨w, e, hand⟩ ⟨w', e', hand'⟩ where
  candidate k c hc := h.candidate k c (hq.holds_iff.mp hc)
  won c := by
    rintro ⟨k, s, hs, hc⟩
    obtain ⟨s₀, hs₀, hcore⟩ := hq.lookup_of_lookup hs
    exact h.won c ⟨k, s₀, hs₀, hcore.winner_eq ▸ hc⟩
  queued item hitem := (hq.queue item hitem).elim (h.queued item) fun hn => .inr (hnew item hn)
  walkLoad probes hprobes := h.walkLoad probes (by
    change probes ∈ w'.walkLoads at hprobes
    rwa [hq.frame] at hprobes)
  hand := h.hand
  relocations := by
    have heq : w'.relocations = w₁.relocations := by rw [hq.frame]
    exact heq ▸ h.relocations

theorem Origins.shadows {w₁ : Walk} (h : Origins solver ⟨w, e, hand⟩ ⟨w₁, e', hand'⟩)
    (hwon : ∀ c, w₁.Won c → w.Won c)
    (hq : Walk.Queues (Walk.IsShadowItem solver.backend w₁) w₁ w') :
    Origins solver ⟨w, e, hand⟩ ⟨w', e', hand'⟩ := by
  refine h.queues hq ?_
  rintro item ⟨k, s, hs, c, hc, reader, hreader, origin, hchild⟩
  refine ⟨c, reader, h.candidate k c ⟨s, hs, hc⟩, ?_, _, _, _, hchild⟩
  exact hreader.imp_right fun ⟨hwinner, hcoord⟩ => ⟨hwon reader ⟨k, s, hs, hwinner⟩, hcoord⟩

omit [Lowercase] in
theorem won_of_joined {w₁ : Walk} (hw₁ : w.Prepared w₁) {key : CoordKey} {s' : Selected}
    (hwinner : ∀ c, s'.winner = some c → w.Won c)
    (hselected : w'.selected = (w₁.setSelected key s').selected) (c : Candidate) (hc : w'.Won c) :
    w.Won c := by
  obtain ⟨k, t, ht, hc⟩ := hc
  rw [hselected, Walk.lookup_setSelected, hw₁.selected_eq] at ht
  split at ht
  · cases ht
    exact hwinner c hc
  · exact ⟨k, t, ht, hc⟩

/-- A group got versions of `r`, next to what it kept. -/
theorem Origins.of_joined (hr : r ∈ hand) (hbelow : ¬ w.Below r.candidate.item.path r.candidate.key)
    {w₁ : Walk} (hw₁ : w.Prepared w₁) {key : CoordKey} {kept : List Candidate} (s' : Selected)
    {arc : ℕ}
    (hkept : ∀ c ∈ kept, w.Holds key c)
    (hcandidates : ∀ c ∈ s'.candidates, c ∈ kept ∨ c ∈ r.versions arc)
    (hwinner : ∀ c, s'.winner = some c → w.Won c)
    (hselected : w'.selected = (w₁.setSelected key s').selected) (hqueue : w'.queue = w₁.queue)
    (hloads : w'.walkLoads = w₁.walkLoads) (hrelocations : w'.relocations = w₁.relocations) :
    Origins solver ⟨w, e, hand⟩ ⟨w', e', shadowsOf hand⟩ := by
  have hwon := won_of_joined hw₁ hwinner hselected
  obtain ⟨nextArc, unscanned, rfl⟩ := hw₁
  refine ⟨fun k c hc => ?_, fun c hc => ⟨c, .inl (hwon c hc), .refl c⟩,
    fun _ hitem => .inl (hqueue ▸ hitem), fun _ hprobes => .inl (hloads ▸ hprobes),
    fun _ hr => .inl hr.1, .inl hrelocations⟩
  rw [Walk.Holds, hselected] at hc
  have hc' := Walk.holds_setSelected.mp hc
  split at hc'
  · rcases hcandidates c hc' with hold | hnew
    · exact .of_holds (hkept c hold)
    · exact .inr ⟨r, hr, hbelow, arc, hnew⟩
  · exact .of_holds hc'

/-- A candidate that joins is a version of a declaration in hand. -/
theorem Origins.join (hr : r ∈ hand) (h : w.joinGroup solver.backend r = .ok w') :
    Origins solver ⟨w, e, hand⟩ ⟨w', e, shadowsOf hand⟩ := by
  have hsub : shadowsOf hand ⊆ hand := fun _ hr => hr.1
  have hprepared {w₁ : Walk} (hw₁ : w.Prepared w₁) :
      Origins solver ⟨w, e, hand⟩ ⟨w₁, e, shadowsOf hand⟩ := by
    obtain ⟨nextArc, unscanned, rfl⟩ := hw₁
    exact .of_inherits (.of_eq rfl rfl rfl rfl) hsub
  cases Walk.joinGroup_steps h with
  | cut hbelow heq =>
    subst heq
    refine .of_inherits ?_ hsub
    unfold Walk.cutEdge
    split
    · split <;> exact .of_eq rfl rfl rfl rfl
    · exact .refl w
  | dropped hshadow hprep => exact hprepared hprep
  | walk w₁ highest origin hw₁ hbelow hshadow hhighest hqueues =>
    exact (hprepared hw₁).queues hqueues fun item hchild =>
      ⟨highest, highest, .inr ⟨r, hr, hbelow, hhighest⟩, .inl rfl, _, _, _, hchild⟩
  | walkLoad w₁ arc hw₁ hbelow hshadow heq =>
    subst heq
    refine { hprepared hw₁ with walkLoad := fun probes hprobes => ?_ }
    rcases mem_cons.mp hprobes with rfl | hold
    · exact .inr fun c hc => .inr ⟨r, hr, hbelow, arc, hc⟩
    · exact (hprepared hw₁).walkLoad probes hold
  | shadow w₁ arc s origin hw₁ hbelow hshadow hs heq =>
    subst heq
    rw [Walk.markDirty_eq]
    exact .of_joined hr hbelow hw₁ (s.withCandidates (s.candidates ++ r.versions arc))
      (fun c hc => ⟨s, hs, hc⟩) (fun c hc => mem_append.mp hc) (fun c hc => ⟨_, s, hs, hc⟩)
      rfl rfl rfl rfl
  | group w₁ arc highest hw₁ hbelow hshadow hnone hhighest heq =>
    subst heq
    rw [Walk.addGroup_eq]
    exact .of_joined hr hbelow hw₁ (.new w₁.graph.nodes.length (r.versions arc))
      (fun c hc => absurd hc not_mem_nil) (fun c hc => .inr hc) (fun c hc => by cases hc)
      rfl rfl rfl rfl
  | again w₁ arc s p hw₁ hbelow hshadow hs heq =>
    subst heq
    rw [Walk.markDirty_eq]
    exact .of_joined hr hbelow hw₁ (s.withCandidates (s.candidates.filter p ++ r.versions arc))
      (fun c hc => ⟨s, hs, mem_of_mem_filter hc⟩) (fun c hc => mem_append.mp hc)
      (fun c hc => ⟨_, s, hs, hc⟩) rfl rfl rfl rfl
  | behind w₁ arc s lowest state hw₁ hbelow hshadow hs hbehind hsteps =>
    have hjoined {w₂ : Walk} : _ → _ → _ → _ →
        Origins solver ⟨w, e, hand⟩ ⟨w₂, e, shadowsOf hand⟩ :=
      .of_joined hr hbelow hw₁
        { s with candidates := s.candidates ++ r.versions arc, settled := some state }
        (fun c hc => ⟨s, hs, hc⟩) (fun c hc => mem_append.mp hc) fun c hc => ⟨_, s, hs, hc⟩
    cases hsteps with
    | dirty hdirty heq | confirm lowest start heq =>
      subst heq
      exact hjoined rfl rfl rfl rfl
    | again heq =>
      subst heq
      rw [Walk.markDirty_eq]
      exact hjoined rfl rfl rfl rfl
    | scan start hscan =>
      refine Origins.shadows ?_ ?_ (Walk.scanLosers_queues hscan)
      · exact hjoined rfl rfl rfl rfl
      · refine won_of_joined hw₁ ?_ rfl
        exact fun c hc => ⟨_, s, hs, hc⟩

/-- No action brings in a candidate or a declaration of its own. -/
theorem Act.origins (hok : st.Ok) (hact : Act solver st st') : Origins solver st st' := by
  cases hact with
  | @relocations w e hand relocations h =>
    have hstart : Origins solver ⟨w, e, hand⟩ ⟨w, e, hand⟩ := .of_inherits (.refl w) subset_rfl
    exact { hstart with relocations := .inr h }
  | markDirty key =>
    exact .of_inherits (.of_trims (.markDirty (fun _ => True) _ key)) (Set.empty_subset _)
  | note hs hnode hcandidates hwinner hcore =>
    exact .of_inherits (.setSelected hs (fun c hc => hcandidates ▸ hc) hwinner) (Set.empty_subset _)
  | dropGroup => exact .of_inherits (Walk.dropGroup_inherits _ _) (Set.empty_subset _)
  | @loaded w e hand key s l hs hl nextArc =>
    refine ⟨fun k c hc => ?_, ?_, fun _ hitem => .inl hitem, fun _ hprobes => .inl hprobes,
      fun _ hr => hr.elim, .inl rfl⟩
    · have hc' := Walk.holds_setSelected.mp hc
      split at hc'
      · obtain ⟨c₀, hc₀, hrefreshed⟩ := mem_of_forall₂ hl hc'
        exact .inl ⟨key, c₀, ⟨s, hs, hc₀⟩, .inr hrefreshed⟩
      · exact .of_holds hc'
    · rintro c ⟨k, t, ht, hc⟩
      change (w.setSelected key (s.withCandidates l)).selected.lookup k = some t at ht
      rw [Walk.lookup_setSelected] at ht
      split at ht
      · cases ht
        exact ⟨c, .inl ⟨key, s, hs, hc⟩, .refl c⟩
      · exact ⟨c, .inl ⟨k, t, ht, hc⟩, .refl c⟩
  | @giveWay w e hand key s best hs hbest stops =>
    have hstart : Origins solver ⟨w, e, hand⟩ ⟨w.giveWay key s best stops, e, ∅⟩ :=
      .of_inherits (Walk.giveWay_inherits hs best stops) (Set.empty_subset _)
    exact { hstart with hand := fun r hr => .inr (.inl ⟨key, best, ⟨s, hs, hbest⟩, hr⟩) }
  | union source hr =>
    exact .of_inherits (Walk.union_inherits hok.sound source _)
      (Set.insert_subset hr fun _ h => h.1)
  | join hr h => exact .join hr h
  | scan h =>
    exact Origins.shadows (.of_inherits (.refl _) (Set.empty_subset _)) (fun _ hc => hc)
      (Walk.scanLosers_queues h)
  | @commit w w' key hand winner hwinner h =>
    obtain ⟨w₁, parent, generation, hinherits, hqueues⟩ := Walk.commit_inherits hwinner h
    exact (Origins.of_inherits hinherits (Set.empty_subset _)).queues hqueues fun item hchild =>
      ⟨winner, winner, .of_holds hwinner, .inl rfl, _, _, _, hchild⟩
  | unscanned rest | confirm =>
    exact .of_inherits (.of_eq rfl rfl rfl rfl) (Set.empty_subset _)
  | @walkLoads w e hand probes rest h =>
    refine ⟨fun k c hc => .of_holds hc, fun c hc => ⟨c, .inl hc, .refl c⟩,
      fun _ hitem => .inl hitem,
      fun other hother => .inl ?_, fun r hr => .inr (.inr (.inl ⟨probes, ?_, hr⟩)), .inl rfl⟩
    · change other ∈ w.walkLoads
      rw [h]
      exact mem_cons_of_mem _ hother
    · change probes ∈ w.walkLoads
      rw [h]
      exact mem_cons_self
  | takeDirty h =>
    unfold Walk.takeDirty at h
    split at h
    · cases h
    · cases h
      exact .of_inherits (.of_eq rfl rfl rfl rfl) (Set.empty_subset _)

theorem Turn.origins (hturn : Turn solver st st') : Origins solver st st' := by
  cases hturn with
  | drop h => exact .of_inherits (.refl _) h
  | rekey | finish h => exact .of_inherits (.refl _) subset_rfl
  | @read w hand item queue h relocations hcache =>
    obtain ⟨hitem, hsub⟩ := mem_of_popQueue h
    exact ⟨fun k c hc => .of_holds hc, fun c hc => ⟨c, .inl hc, .refl c⟩,
      fun other hother => .inl (hsub other hother), fun _ hprobes => .inl hprobes,
      fun r hr => .inr (.inr (.inr ⟨item, hitem, hr.1⟩)), .inr hcache⟩
  | walked h =>
    exact Origins.shadows (.of_inherits (.refl _) (Set.empty_subset _)) (fun _ hc => hc)
      (Walk.walkExcludedDependencies_queues h)

/-- In every stage the cache holds chains of relocations. -/
theorem Reach.supports {N : Walk → Walk → Prop} {root : SolverRoot} (h : Reach N solver root st) :
    solver.backend.Supports st.walk.relocations := by
  have hkept {st st' : Stage} (horigins : Origins solver st st')
      (hcache : solver.backend.Supports st.walk.relocations) :
      solver.backend.Supports st'.walk.relocations := by
    rcases horigins.relocations with heq | hnew
    · rwa [heq]
    · exact hnew
  induction h with
  | start h =>
    obtain ⟨node, hqueues⟩ := start_queues h
    rw [hqueues.frame]
    exact Backend.supports_empty solver.backend
  | act hreach hact _ ih => exact hkept (hact.origins hreach.ok) ih
  | turn _ hturn ih => exact hkept hturn.origins ih

end Stage

end Raeva
