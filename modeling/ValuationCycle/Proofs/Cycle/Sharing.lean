import ValuationCycle.Proofs.Cycle.Carrying

/-!
# What carrying over leaves of the shared live data

Copies go to the shared partition only under outputs that no computing node has.
The nodes taken over that have such an output are live data sourcing nodes, and
the delta leaves them unchanged only if what the two caches have under it stands
for the same. So whatever is carried over, from whatever cycle, shared live data
is replaced at most by what stands for the same.
-/
namespace ValuationCycle
open Json Std

namespace Workspace
variable {w : Workspace} {previous current : CacheHandle} {hint : CacheHint} {s : Specification}

theorem copyAll_shared_of_private (hs : hint.isPrivate s = true) (ns : List Node)
    (k : CacheHandle) : ((w.copyAll previous current hint ns).cache k).sharedPart[s]? =
      (w.cache k).sharedPart[s]? := by
  by_cases hk : k.group = current.group
  · rw [sharedPart_of_group _ hk, w.sharedPart_of_group hk]
    exact ((w.copyAll_parts previous current hint ns).2 s).2 fun h => by simp [hs] at h
  · rw [(w.copyAll_aside previous current hint ns).cache_eq k hk]

theorem copyAll_private (ns : List Node) {k : CacheHandle}
    (hs : k = current → hint.isPrivate s = false) :
    ((w.copyAll previous current hint ns).cache k).privatePart[s]? =
      (w.cache k).privatePart[s]? := by
  by_cases hk : k = current
  · subst hk
    exact ((w.copyAll_parts previous k hint ns).1 s).2 fun h => by simp [hs rfl] at h
  · rw [w.copyAll_private_of_ne previous current hint ns hk]

theorem copyAll_liveData (w : Workspace) (previous current : CacheHandle) (hint : CacheHint)
    (ns : List Node) : (w.copyAll previous current hint ns).liveData = w.liveData := by
  induction ns generalizing w with
  | nil => rfl
  | cons n ns ih => exact ih (w.copyOutputs previous current hint n)

theorem copyAll_shared (hs : hint.isPrivate s = false) (ns : List Node) {k : CacheHandle}
    (hk : k.group = current.group) :
    ((w.copyAll previous current hint ns).cache k).sharedPart[s]? =
      if ∃ n ∈ ns, s ∈ n.outputs then
        ((w.cache previous).get? s).or (w.cache k).sharedPart[s]?
      else (w.cache k).sharedPart[s]? := by
  have hparts := (w.copyAll_parts previous current hint ns).2 s
  rw [sharedPart_of_group _ hk, w.sharedPart_of_group hk]
  split
  · next hn => exact hparts.1 ⟨hs, hn⟩
  · next hn => exact hparts.2 fun h => hn h.2

end Workspace

namespace Cycle
variable {c previous : Cycle} {w : Workspace} {group : CacheGroup} {s : Specification}

theorem carryAll_aside {graphs : List (String × Graph)}
    (hhandles : ∀ e ∈ graphs, c.handles[e.1]? = some ⟨group, e.1⟩) :
    Workspace.Aside group w (carryAll previous c w graphs).workspace := by
  induction graphs generalizing c w with
  | nil => exact w.aside_refl group
  | cons e rest ih =>
      obtain ⟨name, g⟩ := e
      simp only [List.mem_cons, forall_eq_or_imp] at hhandles
      unfold carryAll
      split
      · next current m hcurrent hm =>
          obtain rfl := Option.some.inj (hhandles.1.symm.trans hcurrent)
          split
          · exact ih hhandles.2
          · next old hold =>
              exact (w.copyAll_aside old ⟨group, name⟩ _ _).trans
                (ih (c := c.setMarks name _) hhandles.2)
      · exact w.aside_refl group

theorem carryAll_liveData (previous c : Cycle) (w : Workspace) (graphs : List (String × Graph)) :
    (carryAll previous c w graphs).workspace.liveData = w.liveData := by
  induction graphs generalizing c w with
  | nil => rfl
  | cons e rest ih =>
      obtain ⟨name, g⟩ := e
      unfold carryAll
      split
      · split
        · exact ih c w
        · exact (ih _ _).trans (w.copyAll_liveData _ _ _ _)
      · rfl

/-- What carrying over leaves of the values under one specification. -/
structure Shares (s : Specification) (group : CacheGroup) (graphs : List (String × Graph))
    (w w' : Workspace) : Prop where
  private_eq : ∀ k : CacheHandle, (∀ e ∈ graphs, k = ⟨group, e.1⟩ →
    (CacheHint.ofGraph e.2).isPrivate s = false) →
      (w'.cache k).privatePart[s]? = (w.cache k).privatePart[s]?
  same : ∀ k : CacheHandle, k.group = group →
    sameValue ((w.cache k).sharedPart[s]?) ((w'.cache k).sharedPart[s]?) = true

theorem shares_refl (s : Specification) (group : CacheGroup) (graphs : List (String × Graph))
    (w : Workspace) : Shares s group graphs w w :=
  ⟨fun _ _ => rfl, fun _ _ => sameValue_refl _⟩

theorem Shares.cons {e : String × Graph} {rest : List (String × Graph)} {w' w'' : Workspace}
    (h : Shares s group [e] w w') (h' : Shares s group rest w' w'') :
    Shares s group (e :: rest) w w'' := by
  refine ⟨fun k hk => ?_, fun k hk =>
    sameValue_trans (h.same k hk) (h'.same k hk)⟩
  rw [h'.private_eq k fun e he => hk e (by simp [he]),
    h.private_eq k fun e he => hk e (by simp [List.mem_singleton.mp he])]

/-- A shared value that is replaced is replaced by what stands for the same: the node that has
it as an output is live, or else it would be private, and the delta leaves it unchanged. -/
theorem carryConfiguration_shares {name : String} {g : Graph}
    (hprivate : (CacheHint.ofGraph g).isPrivate s = false →
      (w.cache ⟨group, name⟩).privatePart[s]? = none) (old : CacheHandle) (m : NodeMarks) :
    Shares s group [(name, g)] w (carryConfiguration w g ⟨group, name⟩ old m).1 := by
  obtain ⟨note, hcarry⟩ := carryConfiguration_eq w g ⟨group, name⟩ old m
  rw [hcarry]
  set ns := Delta.unchangedNodes g (w.cache ⟨group, name⟩) (w.cache old) with hns
  refine ⟨fun k hk => Workspace.copyAll_private ns fun he => hk (name, g) (by simp) he,
    fun k hk => ?_⟩
  cases hs : (CacheHint.ofGraph g).isPrivate s with
  | true =>
      rw [Workspace.copyAll_shared_of_private hs]
      exact sameValue_refl _
  | false =>
      rw [Workspace.copyAll_shared hs ns hk]
      split
      · next hn =>
          obtain ⟨n, hn, hsn⟩ := hn
          obtain ⟨i, hi, hin⟩ := List.mem_filterMap.mp hn
          have hlive : n.isLive = true := by
            rw [← Bool.not_eq_false]
            intro hl
            have hp := CacheHint.isPrivate_ofGraph.mpr ⟨n, List.mem_of_getElem? hin, hl, hsn⟩
            rw [hs] at hp
            exact absurd hp (by decide)
          have hsame := Delta.sameValue_of_unchanged hi hin hlive hsn
          rw [Cache.get?, hprivate hs, Option.none_or, ← w.sharedPart_of_group hk] at hsame
          cases hold : (w.cache old).get? s with
          | none =>
              rw [Option.none_or]
              exact sameValue_refl _
          | some v => rwa [hold] at hsame
      · exact sameValue_refl _

/-- Carrying over configuration after configuration replaces shared values by what stands for
the same, where no value that hides them is private. -/
theorem carryAll_shares {graphs : List (String × Graph)} (hnames : (graphs.map Prod.fst).Nodup)
    (hhandles : ∀ e ∈ graphs, c.handles[e.1]? = some ⟨group, e.1⟩)
    (hprivate : ∀ e ∈ graphs, (CacheHint.ofGraph e.2).isPrivate s = false →
      (w.cache ⟨group, e.1⟩).privatePart[s]? = none) :
    Shares s group graphs w (carryAll previous c w graphs).workspace := by
  induction graphs generalizing c w with
  | nil => exact shares_refl s group [] w
  | cons e rest ih =>
      obtain ⟨name, g⟩ := e
      simp only [List.map_cons, List.nodup_cons] at hnames
      simp only [List.mem_cons, forall_eq_or_imp] at hhandles hprivate
      unfold carryAll
      split
      · next current m hcurrent hm =>
          obtain rfl := Option.some.inj (hhandles.1.symm.trans hcurrent)
          split
          · exact (shares_refl s group [(name, g)] w).cons (ih hnames.2 hhandles.2 hprivate.2)
          · next old hold =>
              have hfirst := carryConfiguration_shares hprivate.1 old m
              refine hfirst.cons (ih hnames.2 hhandles.2 fun e he hs => ?_)
              rw [hfirst.private_eq]
              · exact hprivate.2 e he hs
              · intro e' he' hk
                obtain rfl := List.mem_singleton.mp he'
                exact absurd (List.mem_map.mpr ⟨e, he, congrArg CacheHandle.configuration hk⟩)
                  hnames.1
      · exact shares_refl s group _ w

end Cycle
end ValuationCycle
