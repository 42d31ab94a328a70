/-
The order in which a session lists the roots does not matter.

Which variables are taken to interact depends on it.  But what a search looks at are the sizes, and
these depend on the variable order only.

* `Session.Opens.alike` — sessions that are opened with the same roots look the same;
* `Manager.Settled.listing` — a search comes to the same order in as many exchanges.
-/
import DecisionDiagram.Proofs.Counts

namespace DecisionDiagram

/-- Two sessions that are opened in one manager. -/
theorem Session.Opens.alike {m : Manager} {s t : Session} (hs : Session.Opens m s)
    (ht : Session.Opens m t) (hsound : s.Sound) (hsound' : t.Sound) : s.Alike t := by
  have hdiagram : t.diagram = s.diagram := by
    funext id
    by_cases hid : m.Kept id
    · rw [hs.kept hid, ht.kept hid]
    · rw [hs.dropped hid, ht.dropped hid]
  refine ⟨⟨fun id => ht.rooted.trans hs.rooted.symm, fun _ hb => hdiagram ▸ hb⟩, hsound, hsound',
    ?_, ?_, ?_, ?_, ?_⟩
  · rw [hs.manager, ht.manager]
  · rw [hs.manager, ht.manager]
  · rw [hs.manager, ht.manager]
  · rw [hs.swaps, ht.swaps]
  · have hlive : t.manager.store.diagram = s.manager.store.diagram := hdiagram
    rw [hs.initialSize, ht.initialSize, Session.size, Session.size, hsound.store.usedCount_eq,
      hsound'.store.usedCount_eq, hlive]

namespace Manager

variable {m m₀ : Manager}

/-- Two searches with the same method, in sessions that list the roots in different orders, come to
the same variable order with the same account, as long as there is room and no count is saturated,
except those of roots.  In both, all roots have the values that they had. -/
theorem Settled.listing (hm : m.Settled) (hb : m.Begins m₀) (method : ReorderMethod)
    {roots₁ roots₂ : List NodeId} (h₁ : roots₁.Perm m₀.rootNodes) (h₂ : roots₂.Perm m₀.rootNodes)
    {s₁ s₂ t₁ t₂ : Session} (hs₁ : Session.start m₀ roots₁ = some s₁)
    (hs₂ : Session.start m₀ roots₂ = some s₂) (ht₁ : Reordering.reorderAll method s₁ = .ok () t₁)
    (ht₂ : Reordering.reorderAll method s₂ = .ok () t₂) (hu₁ : t₁.Unsaturated) (hu₂ : t₂.Unsaturated)
    {stats₁ stats₂ : ReorderStats} {m₁ m₂ : Manager} (hf₁ : t₁.finish = some (stats₁, m₁))
    (hf₂ : t₂.finish = some (stats₂, m₂)) :
    m₂.order = m₁.order ∧ stats₂ = stats₁ ∧
      ∀ r, m₀.Rooted r → ∀ a : Var → Bool,
        ∃ b, m₀.Value a r b ∧ m₁.Value a r b ∧ m₂.Value a r b := by
  have hguided := Reordering.Guided.reorderAll method
  have hsound := hm.begins hb
  obtain ⟨hsound₁, hopens₁⟩ := hsound.start (fun r => h₁.mem_iff) hs₁
  obtain ⟨hsound₂, hopens₂⟩ := hsound.start (fun r => h₂.mem_iff) hs₂
  have ha₁ := (hguided.walks.walk ht₁).advances hsound₁
  have ha₂ := (hguided.walks.walk ht₂).advances hsound₂
  obtain ⟨hm₁, hclose₁⟩ := ha₁.sound.finish hf₁
  obtain ⟨hm₂, hclose₂⟩ := ha₂.sound.finish hf₂
  obtain ⟨-, halike⟩ := hguided.agrees (hopens₁.alike hopens₂ hsound₁ hsound₂) ht₁ ht₂ hu₁ hu₂
  have hvalue : ∀ {s t : Session} {m' : Manager}, Session.Opens m₀ s → Reordering.Advances s t →
      t.Closes m' → ∀ {r a b}, m₀.Rooted r → m₀.Value a r b → m'.Value a r b := by
    intro s t m' hopens ha hclose r a b hr hb
    have hr := hopens.rooted.mpr hr
    exact hclose.value (ha.keeps.rooted.mpr hr) (ha.keeps.value hr (hopens.value (hopens.rooted.mp hr) hb))
  refine ⟨?_, ?_, fun r hr a => ?_⟩
  · rw [hclose₁.order, hclose₂.order, halike.order]
  · rw [Session.finish_stats hf₁, Session.finish_stats hf₂, halike.swaps, halike.initialSize,
      hclose₁.usedCount_eq_size ha₁.sound hu₁ hm₁, hclose₂.usedCount_eq_size ha₂.sound hu₂ hm₂,
      halike.toShares.size ha₁.sound ha₂.sound halike.order hu₁ hu₂]
  · obtain ⟨b, hb⟩ := hsound.exists_value (hsound.rooted hr) a
    exact ⟨b, hb, hvalue hopens₁ ha₁ hclose₁ hr hb, hvalue hopens₂ ha₂ hclose₂ hr hb⟩

/-- The roots in another order, in which the first two come last. -/
def laterRoots (m : Manager) : List NodeId := m.rootNodes.drop 2 ++ m.rootNodes.take 2

theorem laterRoots_perm (m : Manager) : m.laterRoots.Perm m.rootNodes :=
  calc (m.rootNodes.drop 2 ++ m.rootNodes.take 2).Perm (m.rootNodes.take 2 ++ m.rootNodes.drop 2) :=
        List.perm_append_comm
    _ = m.rootNodes := List.take_append_drop 2 _

/-- Only one of two listings makes the first two variables interact, and the search comes to the same. -/
theorem listing_conjunctions :
    ∃ m s t s' t' m₁ m₂ stats₁ stats₂, after (.small 16 0) [.setVarNum 4, .makeNode 0 0 6,
        .makeNode 2 0 8, .makeNode 1 0 11, .protect 10, .protect 12] = some m ∧
      Session.start { m with pending := [] } (rootNodes { m with pending := [] }) = some s ∧
      Session.start { m with pending := [] } (laterRoots { m with pending := [] }) = some t ∧
      Reordering.interacts s 0 1 = true ∧ Reordering.interacts t 0 1 = false ∧
      s.search .win2 = some s' ∧ t.search .win2 = some t' ∧ s'.finish = some (stats₁, m₁) ∧
      t'.finish = some (stats₂, m₂) ∧ m₂.order = m₁.order ∧ stats₂ = stats₁ := by
  have hrun : (after (.small 16 0) [.setVarNum 4, .makeNode 0 0 6, .makeNode 2 0 8, .makeNode 1 0 11,
      .protect 10, .protect 12]).any fun m =>
        (Session.start { m with pending := [] } (rootNodes { m with pending := [] })).any fun s =>
          (Session.start { m with pending := [] } (laterRoots { m with pending := [] })).any
            fun t => (Reordering.interacts s 0 1 && !Reordering.interacts t 0 1) &&
              (s.search .win2).any fun s' => (t.search .win2).any fun t' =>
                (s'.Unsaturated && t'.Unsaturated) && (s'.finish.isSome && t'.finish.isSome) := by
    decide +kernel
  obtain ⟨m, hm, hrun⟩ := (Option.any_eq_true _ _).mp hrun
  obtain ⟨s, hs, hrun⟩ := (Option.any_eq_true _ _).mp hrun
  obtain ⟨t, ht, hrun⟩ := (Option.any_eq_true _ _).mp hrun
  simp only [Bool.and_eq_true, Bool.not_eq_true'] at hrun
  obtain ⟨⟨hinteracts, hnot⟩, hrun⟩ := hrun
  obtain ⟨s', hs', hrun⟩ := (Option.any_eq_true _ _).mp hrun
  obtain ⟨t', ht', hrun⟩ := (Option.any_eq_true _ _).mp hrun
  simp only [Bool.and_eq_true, decide_eq_true_eq, Option.isSome_iff_exists, Prod.exists] at hrun
  obtain ⟨⟨hu₁, hu₂⟩, ⟨stats₁, m₁, hf₁⟩, ⟨stats₂, m₂, hf₂⟩⟩ := hrun
  obtain ⟨horder, hstats, -⟩ := (settled_after hm).listing .asked .win2 (.refl _)
    (laterRoots_perm _) hs ht (Session.search_eq hs') (Session.search_eq ht') hu₁ hu₂ hf₁ hf₂
  exact ⟨m, s, t, s', t', m₁, m₂, stats₁, stats₂, hm, hs, ht, hinteracts, hnot, hs', ht', hf₁, hf₂,
    horder, hstats⟩

end Manager

end DecisionDiagram
