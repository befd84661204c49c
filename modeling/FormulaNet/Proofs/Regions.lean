import FormulaNet.Proofs.Persistence

/-!
# Walks that stay in a region

A walk goes along the edges, and the edges that it adds end in nodes that it evaluates.  So it never
leaves a region from which no edge leads out, whatever it meets there (`Net.keptWithin_confined`).  What
is not below the node where a walk begins keeps its result (`Net.Intact.confined_walkBelow`), and so does
a stale node that is not below itself (`Net.Intact.confined_walkBelow_markStale`).
-/

namespace FormulaNet.Net

/-- No edge leads out of a region, and the nodes outside of it have the results that they had. -/
structure Confined (region : NodeId → Prop) (old net : Net) : Prop where
  intact : net.Intact
  closed : ∀ a b, region a → net.ReadBy a b → region b
  kept : ∀ x k n, ¬ region x → old.node? x = some k → net.node? x = some n → n.result = k.result

variable {region : NodeId → Prop} {old net : Net}

theorem Intact.confined (h : net.Intact) (hclosed : ∀ a b, region a → net.ReadBy a b → region b) :
    Confined region net net where
  intact := h
  closed := hclosed
  kept x k n _ hk hn := by rw [Option.some.inj (hn.symm.trans hk)]

namespace Confined

/-- A node can be made stale that is in the region or was stale before. -/
theorem markStale (h : Confined region old net) {id : NodeId}
    (hid : region id ∨ ∀ k, old.node? id = some k → k.result = none) :
    Confined region old (net.markStale id) where
  intact := kept_intact.markStale net id h.intact
  closed a b ha hab := h.closed a b ha (readBy_markStale.1 hab)
  kept x k n hx hk hn := by
    rw [node?_markStale] at hn
    split at hn
    · next heq =>
      subst heq
      obtain ⟨m, -, rfl⟩ := exists_of_map_eq_some hn
      exact ((hid.resolve_left hx) k hk).symm
    · exact h.kept x k n hx hk hn

/-- The edges that an evaluation adds end in the node that is evaluated. -/
theorem refresh (h : Confined region old net) {id : NodeId} (hid : region id) {net' : Net}
    (hr : net.refresh id = .ok net') : Confined region old net' where
  intact := kept_intact.refresh h.intact hr
  closed a b ha hab := by
    by_cases hb : b = id
    · exact hb ▸ hid
    · exact h.closed a b ha (h.intact.readBy_of_refresh hr hb hab)
  kept x k n' hx hk hn' := by
    have hne : x ≠ id := fun heq => hx (heq ▸ hid)
    obtain ⟨n, hn, -, hresult, -⟩ := h.intact.exists_node?_refresh hr hne hn'
    rw [hresult]
    exact h.kept x k n hx hk hn

end Confined

theorem keptWithin_confined (region : NodeId → Prop) (old : Net) :
    KeptWithin region (Confined region old) where
  closed _ id n h hid hn c hc := h.closed id c hid ⟨n, hn, hc⟩
  markStale _ _ hid h := h.markStale (.inl hid)
  refresh _ _ _ hid hr h := h.refresh hid hr

/-- A walk keeps to the nodes that are below the one where it begins. -/
theorem Intact.confined_walkBelow (h : net.Intact) (id : NodeId) :
    Confined (Relation.ReflTransGen net.ReadBy id) net (net.walkBelow id).net :=
  (keptWithin_confined _ net).walkBelow .refl (h.confined fun _ _ => .tail)

/-- A walk from a stale node keeps to the nodes that read it, directly or by way of others. -/
theorem Intact.confined_walkBelow_markStale (h : net.Intact) (id : NodeId) :
    Confined (Relation.TransGen net.ReadBy id) (net.markStale id) ((net.markStale id).walkBelow id).net := by
  have hkept := keptWithin_confined (Relation.TransGen net.ReadBy id) (net.markStale id)
  have hstale : ∀ k, (net.markStale id).node? id = some k → k.result = none := by
    intro k hk
    rw [node?_markStale, if_pos rfl] at hk
    obtain ⟨m, -, rfl⟩ := exists_of_map_eq_some hk
    rfl
  have hstart : Confined (Relation.TransGen net.ReadBy id) (net.markStale id) (net.markStale id) :=
    (kept_intact.markStale net id h).confined fun a b ha hab => ha.tail (readBy_markStale.1 hab)
  refine hkept.walk_succ (fun x _ hx hnet => hkept.walk _ hx hnet) (fun _ hnet => hnet.markStale (.inr hstale))
    (fun n hn c hc => ?_) hstart
  exact .single (readBy_markStale.1 ⟨n, hn, hc⟩)

end FormulaNet.Net
