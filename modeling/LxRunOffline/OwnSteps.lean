import Mathlib.Logic.Relation
import LxRunOffline.Rejection

/-! What a command may do to the registry, one write after the other. It has names of its own, and
writes the keys of their distributions and new keys only; the default is a thing of its own. -/
namespace LxRunOffline

/- `own` are the names of the command, `redirects` tells whether it may change the default, and
`sees` whether the listings that it makes are complete. -/
structure Grant where
  own : Wstr → Prop
  redirects : Prop
  sees : Prop

namespace Registry
variable {upcase : WChar → WChar}

inductive Step (g : Grant) (r : Registry upcase) : Registry upcase → Prop
  | edited {d : Wstr × RegValues} {n key : Wstr} (value : RegValue) (mem : d ∈ r.distros)
      (named : nameOf d.2 = some n) (own : g.own n) (other : key ≠ vnDistroName) :
      Step g r (r.edit d.1 (put key (some value)))
  | created {id : Wstr} (guid : isGuid id = true) (fresh : ¬ r.subkeys.Has id) : Step g r (r.create id)
  | named {d : Wstr × RegValues} {n : Wstr} (mem : d ∈ r.distros) (bare : d.2 = fun _ => none) (noNul : 0 ∉ n)
      (own : g.own n) (unused : g.sees → ∀ e ∈ r.distros, nameOf e.2 ≠ some n) :
      Step g r (r.edit d.1 (put vnDistroName (some (.sz n))))
  | removed {d : Wstr × RegValues} {n : Wstr} (mem : d ∈ r.distros) (named : nameOf d.2 = some n) (own : g.own n) :
      Step g r (r.remove d.1)
  | defaulted {d : Wstr × RegValues} (mem : d ∈ r.distros) (redirects : g.redirects) :
      Step g r (r.setDefault (some d.1))
  | undefaulted (redirects : g.redirects) : Step g r (r.setDefault none)

def Steps (g : Grant) : Registry upcase → Registry upcase → Prop := Relation.ReflTransGen (Step g)

instance (g : Grant) : IsPreorder (Registry upcase) (Steps g) where
  refl _ := .refl
  trans _ _ _ := .trans

def Distinct (r : Registry upcase) : Prop := ∀ d ∈ r.distros, ∀ e ∈ r.distros, ∀ n, nameOf d.2 = some n →
  nameOf e.2 = some n → d = e

variable {g : Grant} {r r' : Registry upcase} {d e : Wstr × RegValues} {n : Wstr}

theorem sameKey (mem : d ∈ r.distros) (mem' : e ∈ r.distros) (key : e.1.map upcase = d.1.map upcase) : e = d :=
  FoldedTable.sameEntry (distroEntry mem').1 (distroEntry mem).1 key

theorem namedPut (noNul : 0 ∉ n) (values : RegValues) :
    nameOf (put vnDistroName (some (.sz n)) values) = some n := by
  rw [nameOf,put,if_pos rfl]
  exact congrArg some (cstrSame ⟨n,noNul⟩)

theorem namedOther {key : Wstr} (other : key ≠ vnDistroName) (value : Option RegValue) (values : RegValues) :
    nameOf (put key value values) = nameOf values := by
  rw [nameOf,put,if_neg (Ne.symm other),nameOf]

theorem editedMem {f : RegValues → RegValues} (mem : d ∈ r.distros) :
    e ∈ (r.edit d.1 f).distros ↔ (e ∈ r.distros ∧ e ≠ d) ∨ e = (d.1,f d.2) := by
  rw [editedDistros,List.mem_map]
  constructor
  · rintro ⟨c,mem',rfl⟩
    by_cases key : c.1.map upcase = d.1.map upcase
    · obtain rfl := sameKey mem mem' key
      exact .inr (by simp)
    · refine .inl ⟨by simpa [key] using mem',fun same => key ?_⟩
      rw [← same]
  · rintro (⟨mem',other⟩ | rfl)
    · exact ⟨e,mem',by rw [if_neg fun key => other (sameKey mem mem' key)]⟩
    · exact ⟨d,mem,by simp⟩

theorem stepOther (step : Step g r r') (mem : d ∈ r.distros) (named : nameOf d.2 = some n) (other : ¬ g.own n) :
    d ∈ r'.distros := by
  cases step with
  | edited value mem' named' own _ =>
    refine (editedMem mem').mpr (.inl ⟨mem,?_⟩)
    rintro rfl
    exact other (Option.some.inj (named'.symm.trans named) ▸ own)
  | created guid fresh => exact (Reg.createdDistros guid fresh) ▸ List.mem_append_left _ mem
  | named mem' bare =>
    refine (editedMem mem').mpr (.inl ⟨mem,?_⟩)
    rintro rfl
    rw [bare] at named
    cases named
  | @removed c m mem' named' own =>
    rw [Reg.removedDistros,List.mem_filter]
    refine ⟨mem,decide_eq_true fun key => ?_⟩
    obtain rfl := sameKey mem' mem key
    exact other (Option.some.inj (named'.symm.trans named) ▸ own)
  | defaulted => exact mem
  | undefaulted => exact mem

theorem stepRoot (step : Step g r r') (still : ¬ g.redirects) : r'.values = r.values := by
  cases step with
  | edited => rfl
  | created guid => rw [create,if_neg (guidNonempty guid)]
  | named => rfl
  | removed => rfl
  | defaulted _ redirects => exact absurd redirects still
  | undefaulted redirects => exact absurd redirects still

theorem stepDistinct (step : Step g r r') (sees : g.sees) (distinct : r.Distinct) : r'.Distinct := by
  cases step with
  | @edited c m key value mem named own other =>
    intro d mem' e mem'' n is is'
    -- Whoever has the name now had it before, as the name is not what has been written.
    have back {x : Wstr × RegValues} (mem' : x ∈ (r.edit c.1 (put key (some value))).distros)
        (is : nameOf x.2 = some n) : ∃ y ∈ r.distros, nameOf y.2 = some n ∧
          (y = c ∧ x = (c.1,put key (some value) c.2) ∨ y ≠ c ∧ x = y) := by
      rcases (editedMem mem).mp mem' with ⟨old,apart⟩ | rfl
      · exact ⟨x,old,is,.inr ⟨apart,rfl⟩⟩
      · rw [namedOther other] at is
        exact ⟨c,mem,is,.inl ⟨rfl,rfl⟩⟩
    obtain ⟨y,memY,isY,whereY⟩ := back mem' is
    obtain ⟨z,memZ,isZ,whereZ⟩ := back mem'' is'
    obtain rfl := distinct y memY z memZ n isY isZ
    rcases whereY with ⟨own,rfl⟩ | ⟨apart,rfl⟩ <;> rcases whereZ with ⟨own',rfl⟩ | ⟨apart',rfl⟩
    · rfl
    · exact absurd own apart'
    · exact absurd own' apart
    · rfl
  | @created id guid fresh =>
    intro d mem e mem' n is is'
    rw [Reg.createdDistros guid fresh] at mem mem'
    have old {x : Wstr × RegValues} (mem : x ∈ r.distros ++ [(id,fun _ => none)]) (is : nameOf x.2 = some n) :
        x ∈ r.distros := by
      rcases List.mem_append.mp mem with old | new
      · exact old
      · rw [List.mem_singleton.mp new] at is
        cases is
    exact distinct d (old mem is) e (old mem' is') n is is'
  | @named c m mem bare noNul own unused =>
    intro d mem' e mem'' n is is'
    -- The new name was nobody's: the listing that was made before has been complete.
    have back {x : Wstr × RegValues} (mem' : x ∈ (r.edit c.1 (put vnDistroName (some (.sz m)))).distros)
        (is : nameOf x.2 = some n) : (x ∈ r.distros ∧ n ≠ m) ∨
          (x = (c.1,put vnDistroName (some (.sz m)) c.2) ∧ n = m) := by
      rcases (editedMem mem).mp mem' with ⟨old,-⟩ | rfl
      · exact .inl ⟨old,fun same => unused sees x old (same ▸ is)⟩
      · rw [namedPut noNul] at is
        exact .inr ⟨rfl,(Option.some.inj is).symm⟩
    rcases back mem' is with ⟨old,apart⟩ | ⟨rfl,same⟩ <;> rcases back mem'' is' with ⟨old',apart'⟩ | ⟨rfl,same'⟩
    · exact distinct d old e old' n is is'
    · exact absurd same' apart
    · exact absurd same apart'
    · rfl
  | removed =>
    intro d mem e mem' n is is'
    rw [Reg.removedDistros,List.mem_filter] at mem mem'
    exact distinct d mem.1 e mem'.1 n is is'
  | defaulted => exact distinct
  | undefaulted => exact distinct

theorem stepsOther (steps : Steps g r r') (mem : d ∈ r.distros) (named : nameOf d.2 = some n) (other : ¬ g.own n) :
    d ∈ r'.distros := by
  induction steps with
  | refl => exact mem
  | tail _ step ih => exact stepOther step ih named other

theorem stepsRoot (steps : Steps g r r') (still : ¬ g.redirects) : r'.values = r.values := by
  induction steps with
  | refl => rfl
  | tail _ step ih => exact (stepRoot step still).trans ih

theorem stepsDistinct (steps : Steps g r r') (sees : g.sees) (distinct : r.Distinct) : r'.Distinct := by
  induction steps with
  | refl => exact distinct
  | tail _ step ih => exact stepDistinct step sees ih

end Registry
end LxRunOffline
