import Mathlib.Data.List.Nodup
import LxRunOffline.Advances
import LxRunOffline.DeleteSafety

/-! What a deletion that returns has done: whatever lay in the directory has been taken out, every
entry once, and the directory itself behind it. -/
namespace LxRunOffline

namespace DirApi
open Program (Triple)
variable {σ : Type} (api : DirApi σ) (action : EnumDirType → Program Stop σ Unit)

def Deep (base path : Wstr) : Prop := ∃ text, base.length ≤ text.length ∧ path = text ++ [backslash]

/- A walk that comes back to where it was, and what its callback knows when it leaves the base. -/
structure Leaving (base : Wstr) (inv left : σ → Prop) (bad : Stop → σ → Prop) : Prop where
  fuel : ∀ s, inv s → bad .outOfFuel s
  set : ∀ d s, inv s → inv (api.setData d s)
  opened : ∀ path, Triple (api.At inv path) (api.openListed path) (fun _ => api.At inv path) bad
  first : ∀ path, Triple (api.At inv path) (api.findFirst path) (fun _ => api.At inv path) bad
  next : ∀ path listed, Triple (api.At inv path) (api.findNext listed) (fun _ => api.At inv path) bad
  acts : ∀ kind path, kind ≠ .exit → Triple (api.At inv path) (action kind) (fun _ => api.At inv path) bad
  leaves : ∀ path, Deep base path → Triple (api.At inv path) (action .exit) (fun _ => api.At inv path) bad
  exits : Triple (api.At inv base) (action .exit) (fun _ => left) bad

namespace Leaving
variable {api} {action} {base : Wstr} {inv left : σ → Prop} {bad : Stop → σ → Prop} {path : Wstr}

section Directory
variable {descend : Program Stop σ Unit} (deeper : ∀ path, Deep base path →
  Triple (api.At inv path) descend (fun _ => api.At inv path) bad) (long : base.length ≤ path.length)
include deeper long

theorem entry (leaving : api.Leaving action base inv left bad) (isRoot : Bool) (entry : FindData) :
    Triple (api.At inv path) (api.enumEntry action descend isRoot path.length entry) (fun _ => api.At inv path)
      bad := by
  have inside : Deep base (path ++ entry.name ++ [backslash]) :=
    ⟨path ++ entry.name,by rw [List.length_append]; exact Nat.le_add_right_of_le long,rfl⟩
  have named : Triple (api.At inv (path ++ entry.name)) (api.enumNamed action descend entry)
      (fun _ s => ∃ text, api.At inv (path ++ text) s) bad := by
    refine Triple.ite (fun _ => ?_) fun _ => ?_
    · refine Triple.bind (extendsAt leaving.set [backslash]) fun _ => (deeper _ inside).weaken (fun _ h => h)
        (fun _ s h => ⟨entry.name ++ [backslash],?_⟩) fun _ _ h => h
      rwa [← List.append_assoc]
    · exact (leaving.acts .file _ (by decide)).weaken (fun _ h => h) (fun _ _ h => ⟨entry.name,h⟩) fun _ _ h => h
  refine Triple.ite (fun _ => ?_) fun _ _ h => h
  exact Triple.bind (extendsAt leaving.set entry.name) fun _ => Triple.bind named fun _ s ⟨text,there⟩ =>
    resizesAt leaving.set text s there

variable {after : σ → Prop} (exits : Triple (api.At inv path) (action .exit) (fun _ => after) bad)
include exits

theorem entries (leaving : api.Leaving action base inv left bad) (isRoot : Bool) (found : List FindData) :
    Triple (api.At inv path) (api.enumEntries action descend isRoot path.length found) (fun _ => after) bad := by
  induction found with
  | nil => exact exits
  | cons entry rest ih =>
    refine Triple.bind (leaving.entry deeper long isRoot entry) fun _ => Ranked.here ?_
    exact Triple.bind (leaving.next path path) fun _ => Triple.ite (fun _ => ih) fun _ => exits

end Directory

theorem directory (leaving : api.Leaving action base inv left bad) {fuel : Nat} (deeper : ∀ path, Deep base path →
    Triple (api.At inv path) (api.enumRec action fuel false) (fun _ => api.At inv path) bad)
    (long : base.length ≤ path.length) {after : σ → Prop}
    (exits : Triple (api.At inv path) (action .exit) (fun _ => after) bad) :
    Triple (api.At inv path) (api.enumRec action (fuel+1) false) (fun _ => after) bad := by
  refine Ranked.here (Triple.bind (leaving.opened path) fun _ => ?_)
  refine Triple.bind (leaving.acts .enter path (by decide)) fun _ => Ranked.here ?_
  refine Triple.bind (Triple.skip Bool.false_ne_true) fun _ => Ranked.here ?_
  exact Triple.bind (leaving.first path) fun found => leaving.entries deeper long exits false found

theorem inner (leaving : api.Leaving action base inv left bad) (fuel : Nat) (path : Wstr) (deep : Deep base path) :
    Triple (api.At inv path) (api.enumRec action fuel false) (fun _ => api.At inv path) bad := by
  induction fuel generalizing path with
  | zero => exact fun s h => leaving.fuel s h.1
  | succ fuel ih =>
    have long : base.length ≤ path.length := by
      obtain ⟨text,long,rfl⟩ := deep
      rw [List.length_append]
      exact Nat.le_add_right_of_le long
    exact leaving.directory ih long (leaving.leaves path deep)

theorem walk (leaving : api.Leaving action base inv left bad) (fuel : Nat) :
    Triple (api.At inv base) (api.enumRec action fuel false) (fun _ => left) bad := by
  cases fuel with
  | zero => exact fun s h => leaving.fuel s h.1
  | succ fuel => exact leaving.directory (leaving.inner fuel) (Nat.le_refl _) leaving.exits

end Leaving
end DirApi

namespace Volume
variable {v w left : Volume} {d : Nat} {e : Entry}

structure Without (w : Volume) (d : Nat) (e : Entry) (left : Volume) : Prop where
  mem : e ∈ w.listing d
  bare : ∀ id, e.node = .dir id → w.listing id = []
  listing : ∀ x, left.listing x = if x = d then (w.listing d).filter (·.name ≠ e.name) else w.listing x

theorem removedListing (w : Volume) (d : Nat) (name : Wstr) (x : Nat) :
    (w.removeEntry d name).listing x = if x = d then (w.listing d).filter (·.name ≠ name) else w.listing x := by
  unfold Volume.listing removeEntry
  dsimp only
  split
  · cases w.entries d with
    | none => rfl
    | some es => rfl
  · rfl

theorem droppedListing (w : Volume) {d : Nat} (empty : w.listing d = []) (x : Nat) :
    (w.dropDirectory d).listing x = w.listing x := by
  have entries : (w.dropDirectory d).entries x = if x = d then none else w.entries x := rfl
  by_cases same : x = d
  · subst same
    rw [empty,Volume.listing,entries,if_pos rfl]
    rfl
  · rw [Volume.listing,entries,if_neg same]
    rfl

theorem sameNamed {f : Entry} (own : f ∈ v.listing d) (mem : e ∈ v.listing d) (named : f.name = e.name) : f = e := by
  have found := findMember own
  rw [named,findMember mem] at found
  exact (Option.some.inj found).symm

end Volume
namespace DeleteRoot
variable {t : DeleteRoot} {env : FsEnv} {v w left : Volume} {s : DeleteState}

theorem unlinkSource {dir : Bool} {path : Wstr} {gone : Removed} (done : t.unlink w dir path = .ok (gone,left)) :
    (gone = .given ∧ (dir = true ∧ (t.parts path).dropLast = []) ∧ w.listing t.root = [] ∧
        left = w.dropDirectory t.root) ∨
      ∃ d e, gone = .entry d e.name ∧ w.Without d e left := by
  unfold unlink unlinkDirectory unlinkFile at done
  split at done
  · rename_i own
    split at done
    · rename_i names
      split at done
      · cases done
        exact .inl ⟨rfl,⟨own,names⟩,by assumption,rfl⟩
      · cases done
    · split at done
      · cases done
      · rename_i d name target found
        cases done
        exact .inr ⟨d,_,rfl,(entrySource found).2,nofun,w.removedListing d name⟩
      · rename_i d name id found
        split at done
        · rename_i empty
          cases done
          obtain ⟨-,mem⟩ := entrySource found
          have other : id ≠ d := fun same => by simp [← same,empty] at mem
          refine .inr ⟨d,_,rfl,mem,fun _ same => by cases same; exact empty,fun x => ?_⟩
          rw [Volume.droppedListing _ (by rw [w.removedListing,if_neg other,empty]),w.removedListing]
        · cases done
      · cases done
  · split at done
    · cases done
    · rename_i d name found
      cases done
      exact .inr ⟨d,_,rfl,(entrySource found).2,nofun,w.removedListing d name⟩
    · cases done

theorem nodupSnoc {removed : List Removed} {gone : Removed} (once : removed.Nodup) (new : gone ∉ removed) :
    (removed ++ [gone]).Nodup := by
  rw [List.nodup_append]
  exact ⟨once,List.nodup_singleton _,fun x mem y last same => new (List.mem_singleton.mp last ▸ same ▸ mem)⟩

structure Accounted (t : DeleteRoot) (v : Volume) (s : DeleteState) : Prop where
  left : Volume.Left v s.volume
  kept : ∀ d, ∀ e ∈ v.listing d, e ∈ s.volume.listing d ∨ .entry d e.name ∈ s.removed
  gone : ∀ d name, .entry d name ∈ s.removed → ∃ e ∈ v.listing d, e.name = name ∧ e ∉ s.volume.listing d ∧
    ∀ id, e.node = .dir id → s.volume.listing id = []
  once : s.removed.Nodup
  root : .given ∈ s.removed → s.volume.listing t.root = []

theorem Accounted.begins (t : DeleteRoot) (v : Volume) (clock : Nat) :
    t.Accounted v {t.begins v with clock := clock} where
  left := .refl v
  kept _ _ mem := .inl mem
  gone _ _ mem := absurd mem List.not_mem_nil
  once := List.nodup_nil
  root mem := absurd mem List.not_mem_nil

theorem Accounted.given (h : t.Accounted v s) (new : .given ∉ s.removed) (empty : s.volume.listing t.root = []) :
    t.Accounted v {s with volume := s.volume.dropDirectory t.root, removed := s.removed ++ [.given]} := by
  have same := s.volume.droppedListing empty
  refine ⟨h.left.trans (s.volume.droppedLeft t.root),?_,?_,nodupSnoc h.once new,fun _ => (same _).trans empty⟩
  · simpa [same] using h.kept
  · simpa [same] using h.gone

theorem Accounted.without (h : t.Accounted v s) {d : Nat} {e : Entry} (lost : s.volume.Without d e left) :
    t.Accounted v {s with volume := left, removed := s.removed ++ [.entry d e.name]} := by
  have less (x : Nat) : (left.listing x).Sublist (s.volume.listing x) := by
    rw [lost.listing]
    split
    · rename_i same
      exact same ▸ List.filter_sublist
    · exact .refl _
  have absent {f : Entry} (mem : f ∈ left.listing d) : f.name ≠ e.name := by
    rw [lost.listing,if_pos rfl] at mem
    simpa using (List.mem_filter.mp mem).2
  refine ⟨h.left.trans less,fun x f mem => ?_,fun x name mem => ?_,?_,fun mem => ?_⟩
  · rcases h.kept x f mem with here | before
    · rw [lost.listing]
      by_cases same : x = d
      · by_cases named : f.name = e.name
        · exact .inr (by simp [same,named])
        · exact .inl (by rw [if_pos same]; exact List.mem_filter.mpr ⟨same ▸ here,by simp [named]⟩)
      · exact .inl (by rwa [if_neg same])
    · exact .inr (List.mem_append_left _ before)
  · rcases List.mem_append.mp mem with before | new
    · obtain ⟨f,own,named,out,bare⟩ := h.gone x name before
      exact ⟨f,own,named,fun here => out ((less x).subset here),fun id dir =>
        List.sublist_nil.mp (bare id dir ▸ less id)⟩
    · cases List.mem_singleton.mp new
      exact ⟨e,(h.left _).subset lost.mem,rfl,fun here => absent here rfl,fun id dir =>
        List.sublist_nil.mp (lost.bare id dir ▸ less id)⟩
  · refine nodupSnoc h.once fun mem => ?_
    obtain ⟨f,own,named,out,-⟩ := h.gone d e.name mem
    obtain rfl : f = e := Volume.sameNamed own ((h.left d).subset lost.mem) named
    exact out lost.mem
  · rcases List.mem_append.mp mem with before | new
    · exact List.sublist_nil.mp (h.root before ▸ less t.root)
    · cases List.mem_singleton.mp new

structure Within (t : DeleteRoot) (v : Volume) (s : DeleteState) : Prop extends t.Accounted v s where
  fresh : .given ∉ s.removed

theorem Within.ticked (h : t.Within v s) (clock : Nat) (data : Wstr) :
    t.Within v {s with clock := clock, data := data} :=
  ⟨⟨h.left,h.kept,h.gone,h.once,h.root⟩,h.fresh⟩

theorem ticksWithin {α : Type} {x : Delete α} (h : Fs.Ticks x) (path : Wstr) :
    Program.Triple ((t.api env).At (t.Within v) path) x (fun _ => (t.api env).At (t.Within v) path)
      fun _ _ => True :=
  (h.keeps _ fun s hs => ⟨hs.1.ticked (s.clock+1) s.data,hs.2⟩).weaken (fun _ h => h) (fun _ _ h => h)
    fun _ _ _ => trivial

def LeftAt (t : DeleteRoot) (v : Volume) (s : DeleteState) : Prop := t.Accounted v s ∧ .given ∈ s.removed

theorem baseParts : (t.parts t.base).dropLast = [] := by simp [parts]

theorem unlinkGiven {gone : Removed} (done : t.unlink w true t.base = .ok (gone,left)) : gone = .given := by
  rw [unlink,if_pos rfl,baseParts,unlinkDirectory,if_pos rfl] at done
  split at done
  · cases done
    rfl
  · cases done

theorem deepParts {path : Wstr} (deep : DirApi.Deep t.base path) : (t.parts path).dropLast ≠ [] := by
  obtain ⟨text,long,rfl⟩ := deep
  rw [parts,List.drop_append_of_le_length long,List.splitOn_append_cons_self,List.splitOn_nil,List.dropLast_concat]
  exact List.splitOn_ne_nil _ _

theorem removeAccounted (dir : Bool) (path : Wstr) : Program.Triple ((t.api env).At (t.Within v) path)
    (t.remove env dir) (fun _ s => (t.Accounted v s ∧ s.data = path) ∧
      ((dir = true → (t.parts path).dropLast ≠ []) → .given ∉ s.removed) ∧
      (dir = true → path = t.base → .given ∈ s.removed)) fun _ _ => True := by
  refine .get fun s h => ?_
  have here : s.data = path := h.2
  have asked : Program.Triple (fun u => u = s)
      (Fs.call env (if dir then .removeDirectory s.data else .deleteFile s.data))
      (fun _ u => u = Clocked.tick s) (fun _ _ => True) := fun u same => by rw [same]; rfl
  refine .bind asked fun code => .ite (fun _ _ _ => trivial) fun _ => ?_
  cases done : t.unlink s.volume dir s.data with
  | error code => exact fun _ _ => trivial
  | ok result =>
    obtain ⟨gone,left⟩ := result
    rintro u rfl
    have ticked : t.Within v (Clocked.tick s) := h.1.ticked (s.clock+1) s.data
    have last : dir = true → path = t.base → gone = .given := by
      rintro rfl rfl
      exact unlinkGiven (here ▸ done)
    rcases unlinkSource done with ⟨rfl,⟨own,names⟩,empty,rfl⟩ | ⟨d,e,rfl,lost⟩
    · refine ⟨⟨ticked.given ticked.fresh empty,here⟩,fun deep => absurd (here ▸ names) (deep own),fun _ _ => ?_⟩
      exact List.mem_append_right _ List.mem_cons_self
    · refine ⟨⟨ticked.without lost,here⟩,fun _ mem => ?_,fun own base => absurd (last own base) nofun⟩
      rcases List.mem_append.mp mem with before | new
      · exact ticked.fresh before
      · cases List.mem_singleton.mp new

theorem deleteLeaving (v : Volume) (env : FsEnv) : (t.api env).Leaving (t.action env) t.base (t.Within v) (t.LeftAt v)
    fun _ _ => True where
  fuel _ _ := trivial
  set d s h := h.ticked s.clock d
  opened path := .get fun s h => .ite (fun _ u same => ticksWithin (.openListed env path) path u (same ▸ h))
    fun _ _ _ => trivial
  first path := by
    refine .bind (ticksWithin (.ask _) path) fun code => .ite (fun _ _ _ => trivial) fun _ => .get fun s h => ?_
    cases t.dirAt s.volume path with
    | none => exact fun _ _ => trivial
    | some d => exact fun u same => same ▸ h
  next path listed := ticksWithin (.findNext env listed) path
  acts kind path other := by
    refine .ite (fun _ _ h => h) fun _ =>
      (removeAccounted _ path).weaken (fun _ h => h) (fun _ s h => ?_) fun _ _ h => h
    exact ⟨⟨h.1.1,h.2.1 fun exits => absurd (of_decide_eq_true exits) other⟩,h.1.2⟩
  leaves path deep := (removeAccounted true path).weaken (fun _ h => h)
    (fun _ s h => ⟨⟨h.1.1,h.2.1 fun _ => deepParts deep⟩,h.1.2⟩) fun _ _ h => h
  exits := (removeAccounted true t.base).weaken (fun _ h => h) (fun _ _ h => ⟨h.1.1,h.2.2 rfl rfl⟩) fun _ _ h => h

theorem Accounted.emptied (h : t.Accounted v s) (empty : s.volume.listing t.root = []) {d : Nat}
    (inside : v.Inside t.root d) : s.volume.listing d = [] := by
  -- What lay in a directory that has no entries any more has been taken out, and so has what lay
  -- below it: the induction is along the way to it.
  induction inside with
  | refl => exact empty
  | @tail a b _ edge ih =>
    obtain ⟨e,mem,dir⟩ := List.mem_filterMap.mp edge
    have subdir : e.node = .dir b := by
      cases node : e.node with
      | dir id => simpa [node,Node.subdir] using dir
      | file => simp [node,Node.subdir] at dir
      | reparse target => simp [node,Node.subdir] at dir
    rcases h.kept a e mem with here | before
    · simp [ih] at here
    · obtain ⟨f,own,named,-,bare⟩ := h.gone a e.name before
      obtain rfl : f = e := Volume.sameNamed own mem named
      exact bare b subdir

theorem Accounted.whole (h : t.Accounted v s) (empty : s.volume.listing t.root = []) {d : Nat}
    (inside : v.Inside t.root d) {e : Entry} (mem : e ∈ v.listing d) : .entry d e.name ∈ s.removed :=
  (h.kept d e mem).resolve_left (by simp [h.emptied empty inside])

/- All that lay in the directory has been taken out, each entry once, and the directory itself; and
nothing else, as long as the reparse points lead nowhere else. -/
structure Whole (t : DeleteRoot) (v : Volume) (removed : List Removed) : Prop where
  given : .given ∈ removed
  once : removed.Nodup
  all : ∀ d, v.Inside t.root d → ∀ e ∈ v.listing d, .entry d e.name ∈ removed
  only : v.Contained t.root → ∀ d name, .entry d name ∈ removed → v.Inside t.root d ∧ ∃ e ∈ v.listing d, e.name = name

theorem deletedInside (contained : v.Contained t.root) (env : FsEnv) (clock fuel : Nat) :
    ∀ gone ∈ (t.deleteDirectory env fuel {t.begins v with clock := clock}).2.removed, gone.Inside v t.root := by
  have safe : t.Safe v {t.begins v with clock := clock} := ⟨.refl v,by simp [begins]⟩
  have kept : Program.Keeps (t.Safe v) (t.deleteDirectory env fuel) := (walkSafe contained).walk fuel false
  exact (kept.final safe).removed

theorem deletedWhole {clock fuel : Nat}
    (run : t.deleteDirectory env fuel {t.begins v with clock := clock} = (.ok (),s)) : t.Whole v s.removed := by
  have walk : Program.Triple ((t.api env).At (t.Within v) t.base) (t.deleteDirectory env fuel)
      (fun _ => t.LeftAt v) fun _ _ => True := (deleteLeaving v env).walk fuel
  have begun : t.Within v {t.begins v with clock := clock} := ⟨.begins t v clock,List.not_mem_nil⟩
  obtain ⟨accounted,given⟩ := walk.source ⟨begun,rfl⟩ run
  refine ⟨given,accounted.once,fun d inside e mem => accounted.whole (accounted.root given) inside mem,
    fun contained d name mem => ?_⟩
  have inside := deletedInside contained env clock fuel
  rw [run] at inside
  obtain ⟨e,there,named,-⟩ := accounted.gone d name mem
  exact ⟨inside _ mem,e,there,named⟩

end DeleteRoot
end LxRunOffline
