/-! Codes that are read off the front of a text one symbol at a time, over any alphabets. A
code need not be exact on every symbol; the lemmas speak of texts of symbols on which it is. -/
namespace LxRunOffline

structure PrefixCode (α β : Type) where
  code : α → List β
  read : List β → Option (α × List β)

namespace PrefixCode
variable {α β : Type} (k : PrefixCode α β)

def encode (text : List α) : List β := text.flatMap k.code

structure Exact (a : α) : Prop where
  nonempty : k.code a ≠ []
  read : ∀ rest, k.read (k.code a ++ rest) = some (a,rest)

@[simp] theorem encodeNil : k.encode [] = [] := rfl
@[simp] theorem encodeCons (a : α) (text : List α) :
    k.encode (a :: text) = k.code a ++ k.encode text := rfl
@[simp] theorem encodeAppend (s t : List α) : k.encode (s ++ t) = k.encode s ++ k.encode t := by
  simp [encode]

theorem prefixOfEncode {s t : List α} (hs : ∀ a ∈ s, k.Exact a) (ht : ∀ a ∈ t, k.Exact a)
    (starts : k.encode s <+: k.encode t) : s <+: t := by
  induction s generalizing t with
  | nil => exact List.nil_prefix
  | cons a s ih =>
    obtain ⟨rest,same⟩ := starts
    have exact' := hs a (by simp)
    cases t with
    | nil => simp [exact'.nonempty] at same
    | cons b t =>
      have left := exact'.read (k.encode s ++ rest)
      have right := (ht b (by simp)).read (k.encode t)
      simp only [encodeCons,List.append_assoc] at same
      rw [same,right] at left
      simp only [Option.some.injEq,Prod.mk.injEq] at left
      have tail : s <+: t := ih (fun c hc => hs c (by simp [hc])) (fun c hc => ht c (by simp [hc]))
        ⟨rest,left.2.symm⟩
      rw [left.1]
      exact List.cons_prefix_cons.mpr ⟨rfl,tail⟩

theorem encodeInjective {s t : List α} (hs : ∀ a ∈ s, k.Exact a) (ht : ∀ a ∈ t, k.Exact a)
    (same : k.encode s = k.encode t) : s = t := by
  have starts := prefixOfEncode k hs ht (same ▸ List.prefix_refl _)
  have ends := prefixOfEncode k ht hs (same ▸ List.prefix_refl _)
  exact starts.eq_of_length (Nat.le_antisymm starts.length_le ends.length_le)

end PrefixCode
end LxRunOffline
