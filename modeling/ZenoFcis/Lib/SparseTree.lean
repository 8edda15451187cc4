/-
Full-depth binary hash trees over keyed digests, read along the bits of a `BitTrie`.

Nothing is collapsed: an absent leaf is the digest `empty`, and every level hashes two children with `node`. A proof for
a key is the list of the digests beside its path, topmost first.

- `digest_ascend`: the digest of a tree is reached from the leaf of any key past the digests beside its path.
- `ascend_inj`: two ascents that meet are the same ascent, unless `node` collides on the pairs they hash.
-/
import ZenoFcis.Lib.BitTrie

namespace ZenoFcis.Lib.BitTrie

variable {κ δ β : Type} (t : BitTrie κ δ β) (empty : δ) (node : δ → δ → δ)

/-- the digest of the leaves below depth `d`, with `room` levels left -/
def digest : ℕ → ℕ → List (κ × δ) → δ
  | 0, _, [] => empty
  | 0, _, x :: _ => x.2
  | room + 1, d, leaves =>
    node (digest room (d + 1) (t.side false d leaves)) (digest room (d + 1) (t.side true d leaves))

variable (k : κ)

/-- the two children at depth `d`, one of them on the path of `k` -/
def pair (d : ℕ) (child other : δ) : δ × δ := if t.bit k d then (other, child) else (child, other)

/-- climbs from `child` to depth `d` past the digests beside the path of `k`, topmost first -/
def ascend : ℕ → List δ → δ → δ
  | _, [], child => child
  | d, other :: others, child =>
    let children := t.pair k d (ascend (d + 1) others child) other
    node children.1 children.2

/-- the pairs that an ascent hashes -/
def ascent : ℕ → List δ → δ → List (δ × δ)
  | _, [], _ => []
  | d, other :: others, child =>
    t.pair k d (t.ascend node k (d + 1) others child) other :: ascent (d + 1) others child

/-- the digests beside the path of `k`, from depth `d` down -/
def besides : ℕ → ℕ → List (κ × δ) → List δ
  | 0, _, _ => []
  | room + 1, d, leaves => t.digest empty node room (d + 1) (t.beside k d leaves) :: besides room (d + 1) leaves

variable {t empty node k} {room d : ℕ} {leaves : List (κ × δ)}

/-- there is one sibling for each level -/
theorem besides_length : (t.besides empty node k room d leaves).length = room := by
  induction room generalizing d with
  | zero => rfl
  | succ room ih => rw [besides, List.length_cons, ih]

/-- below depth `d` the path of `k` ends in what the leaves hold at `k` -/
theorem digest_ascend : t.digest empty node room d (t.below k d leaves) =
    t.ascend node k d (t.besides empty node k room d leaves)
      (t.digest empty node 0 (d + room) (t.below k (d + room) leaves)) := by
  induction room generalizing d with
  | zero => rfl
  | succ room ih =>
    have hside : t.digest empty node (room + 1) d (t.below k d leaves) =
        node (t.pair k d (t.digest empty node room (d + 1) (t.below k (d + 1) leaves))
            (t.digest empty node room (d + 1) (t.beside k d leaves))).1
          (t.pair k d (t.digest empty node room (d + 1) (t.below k (d + 1) leaves))
            (t.digest empty node room (d + 1) (t.beside k d leaves))).2 := by
      rw [digest, pair, ← side_below, ← side_beside]
      cases t.bit k d <;> rfl
    rw [hside, ih, besides, ascend, show d + (room + 1) = d + 1 + room by omega]

/-- an ascent past the digests beside a path hashes the two halves of every node on it -/
theorem ascent_halves {p : δ × δ} (h : p ∈ t.ascent node k d (t.besides empty node k room d leaves)
    (t.digest empty node 0 (d + room) (t.below k (d + room) leaves))) :
    ∃ n e, d ≤ e ∧ n + e + 1 = room + d ∧ p = (t.digest empty node n (e + 1) (t.side false e (t.below k e leaves)),
      t.digest empty node n (e + 1) (t.side true e (t.below k e leaves))) := by
  induction room generalizing d with
  | zero => cases h
  | succ room ih =>
    rw [show d + (room + 1) = d + 1 + room by omega] at h
    rcases List.mem_cons.1 h with rfl | hmem
    · refine ⟨room, d, le_refl d, by omega, ?_⟩
      rw [← digest_ascend, pair, ← side_below, ← side_beside]
      cases t.bit k d <;> rfl
    · obtain ⟨n, e, hle, hsum, hp⟩ := ih hmem
      exact ⟨n, e, by omega, by omega, hp⟩

theorem pair_inj {child child' other other' : δ} (h : t.pair k d child other = t.pair k d child' other') :
    child = child' ∧ other = other' := by
  unfold pair at h
  split_ifs at h
  · exact ⟨congrArg Prod.snd h, congrArg Prod.fst h⟩
  · exact ⟨congrArg Prod.fst h, congrArg Prod.snd h⟩

/-- ascents of one length that meet are equal when `node` tells their pairs apart -/
theorem ascend_inj {others others' : List δ} {child child' : δ} (hlen : others.length = others'.length)
    (hnode : ∀ p ∈ t.ascent node k d others child, ∀ q ∈ t.ascent node k d others' child',
      node p.1 p.2 = node q.1 q.2 → p = q)
    (h : t.ascend node k d others child = t.ascend node k d others' child') : others = others' ∧ child = child' := by
  induction others generalizing others' d with
  | nil =>
    obtain rfl : others' = [] := List.length_eq_zero_iff.1 hlen.symm
    exact ⟨rfl, h⟩
  | cons other others ih =>
    obtain ⟨other', others', rfl⟩ := List.exists_cons_of_length_eq_add_one hlen.symm
    simp only [ascent, List.forall_mem_cons] at hnode
    have hpair := hnode.1.1 h
    obtain ⟨hchild, hother⟩ := pair_inj hpair
    obtain ⟨hothers, hchild⟩ := ih (Nat.succ.inj hlen) (fun p hp q hq => (hnode.2 p hp).2 q hq) hchild
    exact ⟨by rw [hother, hothers], hchild⟩

end ZenoFcis.Lib.BitTrie
