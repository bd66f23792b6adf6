import DeepOS.RadixForest

/-!
# The paths of a radix tree

In a tree there is one table for each path that can be followed, so tables are counted
by counting paths.
-/
namespace RadixForest

variable {F I W : Type} {next : W → Option F} {d : Nat} {m : F → I → W} {r : F}

def paths (next : W → Option F) (d : Nat) (m : F → I → W) (r : F) : Set (List I) :=
  {q | q.length ≤ d ∧ (follow next m r q).isSome}

theorem paths_finite [Finite I] : (paths next d m r).Finite :=
  (List.finite_length_le I d).subset fun _ hq => hq.1

theorem mem_paths_of_prefix {p q : List I} (hq : q <+: p) (hp : p ∈ paths next d m r) :
    q ∈ paths next d m r := by
  obtain ⟨rest, rfl⟩ := hq
  obtain ⟨hlen, hsome⟩ := hp
  obtain ⟨f, hf⟩ := Option.isSome_iff_exists.mp hsome
  obtain ⟨g, hg⟩ := follow_prefix hf
  rw [List.length_append] at hlen
  exact ⟨by omega, by rw [hg]; rfl⟩

theorem ncard_paths (h : Forest next d m {r}) :
    (paths next d m r).ncard = (nodes next d m {r}).ncard := by
  refine Set.ncard_congr (fun q hq => (follow next m r q).get hq.2) ?_ ?_ ?_
  · exact fun q hq => ⟨r, rfl, q, hq.1, (Option.some_get hq.2).symm⟩
  · intro q q' hq hq' heq
    have hfollow : follow next m r q' = some ((follow next m r q).get hq.2) := by
      rw [heq, Option.some_get]
    exact (h r rfl r rfl q q' _ hq.1 hq'.1 (Option.some_get hq.2).symm hfollow).2
  · rintro f ⟨_, rfl, q, hq, hf⟩
    refine ⟨q, ⟨hq, by rw [hf]; rfl⟩, ?_⟩
    simp only [hf, Option.get_some]

end RadixForest
