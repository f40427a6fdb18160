import LxRunOffline.Components
import LxRunOffline.DeleteDirectory

/-! What `delete_directory` takes out, and that it ends. Both hang on where the entries with the
attribute of a directory lead: to directories of the tree or to ones without entries, and by no
path for ever. -/
namespace LxRunOffline

/- The volumes whose reparse points do no harm below the directory. -/
structure Volume.Contained (v : Volume) (root : Nat) : Prop where
  ends : Acc (fun b a => b ∈ v.edges a) root
  inside : ∀ d, v.Reached root d → v.listing d ≠ [] → v.Inside root d

def Removed.Inside (v : Volume) (root : Nat) : Removed → Prop
  | entry d _ => v.Inside root d
  | given => True

namespace DeleteRoot
open Program (Triple)
variable {t : DeleteRoot} {env : FsEnv} {v w left : Volume} {s : DeleteState}

structure Safe (t : DeleteRoot) (v : Volume) (s : DeleteState) : Prop where
  left : Volume.Left v s.volume
  removed : ∀ gone ∈ s.removed, gone.Inside v t.root

theorem entrySource {names : List Wstr} {d : Nat} {e : Entry} (found : t.entryAt w names = some (d,e)) :
    (∃ dirs, w.resolve t.root dirs = some d) ∧ e ∈ w.listing d := by
  obtain ⟨d',there,rest⟩ := Option.bind_eq_some_iff.mp found
  obtain ⟨e',here,same⟩ := Option.map_eq_some_iff.mp rest
  obtain ⟨rfl,rfl⟩ := Prod.mk.inj same
  obtain ⟨name,-,looked⟩ := Option.bind_eq_some_iff.mp here
  exact ⟨⟨_,there⟩,(Volume.findSource looked).1⟩

theorem entryInside (contained : v.Contained t.root) (h : Volume.Left v w) {names : List Wstr}
    {d : Nat} {e : Entry} (found : t.entryAt w names = some (d,e)) : v.Inside t.root d := by
  obtain ⟨⟨dirs,there⟩,mem⟩ := entrySource found
  refine contained.inside d (Volume.resolveReached (h.resolve there)) fun none' => ?_
  have before := (h d).subset mem
  simp [none'] at before

theorem unlinkSafe (contained : v.Contained t.root) (h : Volume.Left v w) {dir : Bool} {path : Wstr}
    {gone : Removed} (done : t.unlink w dir path = .ok (gone,left)) :
    Volume.Left w left ∧ gone.Inside v t.root := by
  unfold unlink unlinkDirectory unlinkFile at done
  split at done
  · split at done
    · split at done
      · cases done
        exact ⟨w.droppedLeft t.root,trivial⟩
      · cases done
    · split at done
      · cases done
      · rename_i d name _ found
        cases done
        exact ⟨w.removedLeft d name,entryInside contained h found⟩
      · rename_i d name id found
        split at done
        · cases done
          exact ⟨(w.removedLeft d name).trans (Volume.droppedLeft _ id),entryInside contained h found⟩
        · cases done
      · cases done
  · split at done
    · cases done
    · rename_i d name found
      cases done
      exact ⟨w.removedLeft d name,entryInside contained h found⟩
    · cases done

def Halts (t : DeleteRoot) (v : Volume) : Stop → DeleteState → Prop :=
  fun e s => t.Safe v s ∧ e ≠ .outOfFuel

def Here (t : DeleteRoot) (v : Volume) (env : FsEnv) (path : Wstr) : DeleteState → Prop :=
  (t.api env).At (t.Safe v) path

theorem ticksHere {α : Type} {x : Delete α} (h : Fs.Ticks x) (path : Wstr) :
    Triple (t.Here v env path) x (fun _ => t.Here v env path) (t.Halts v) :=
  (h.keeps _ fun _ hs => ⟨⟨hs.1.left,hs.1.removed⟩,hs.2⟩).weaken (fun _ h => h) (fun _ _ h => h)
    fun _ _ h => ⟨h.1.1,h.2⟩

theorem openListedHere (listed path : Wstr) : Triple (t.Here v env path) (t.openListed env listed)
    (fun _ => t.Here v env path) (t.Halts v) := by
  refine Triple.get fun s h => Triple.ite (fun _ => ?_) (fun _ u same => ?_)
  · exact fun u same => ticksHere (.openListed env listed) path u (same ▸ h)
  · exact ⟨same ▸ h.1,nofun⟩

theorem findFirstHere (listed path : Wstr) : Triple (t.Here v env path) (t.findFirst env listed)
    (fun found s => t.Here v env path s ∧ ∃ d, t.dirAt s.volume listed = some d ∧
      found = ⟨dotName,true⟩ :: ⟨dotDotName,true⟩ :: (s.volume.listing d).map Entry.found)
    (t.Halts v) := by
  refine Triple.bind (ticksHere (.ask _) path) fun code => Triple.ite (fun _ s h => ⟨h.1,nofun⟩) ?_
  refine fun _ => Triple.get fun s h => ?_
  cases there : t.dirAt s.volume listed with
  | none => exact fun u same => ⟨same ▸ h.1,nofun⟩
  | some d => exact fun u same => ⟨same ▸ h,d,by rw [same,there],by rw [same]⟩

theorem actionHere (contained : v.Contained t.root) (type : EnumDirType) (path : Wstr) :
    Triple (t.Here v env path) (t.action env type) (fun _ => t.Here v env path) (t.Halts v) := by
  refine Triple.ite (fun _ _ h => h) fun _ => Triple.get fun s h => ?_
  refine fun u same => Triple.bind (ticksHere (.ask _) path) (fun code => ?_) u (same ▸ h)
  refine Triple.ite (fun _ _ h => ⟨h.1,nofun⟩) fun _ => ?_
  cases done : t.unlink s.volume (type = .exit) s.data with
  | error code => exact fun _ h => ⟨h.1,nofun⟩
  | ok result =>
    obtain ⟨less,inside⟩ := unlinkSafe contained h.1.left done
    refine fun u hu => ⟨⟨h.1.left.trans less,fun gone mem => ?_⟩,hu.2⟩
    rcases List.mem_append.mp mem with old | new
    · exact hu.1.removed gone old
    · cases List.mem_singleton.mp new
      exact inside

theorem walkSafe (contained : v.Contained t.root) :
    (t.api env).Steady (t.action env) (t.Safe v) (fun _ => t.Safe v) := by
  have anywhere {α : Type} {x : Delete α} {good : Wstr → α → DeleteState → Prop}
      (h : ∀ path, Triple (t.Here v env path) x (good path) (t.Halts v))
      (safe : ∀ path a s, good path a s → t.Safe v s) :
      Triple (t.Safe v) x (fun _ => t.Safe v) (fun _ => t.Safe v) := fun s hs =>
    (h s.data).weaken (fun _ h => h) (safe s.data) (fun _ _ h => h.1) s ⟨hs,rfl⟩
  refine ⟨fun _ h => h,fun _ _ h => ⟨h.left,h.removed⟩,fun path => ?_,fun path => ?_,fun path => ?_,
    fun type => ?_⟩
  · exact anywhere (openListedHere path) fun _ _ _ h => h.1
  · exact anywhere (findFirstHere path) fun _ _ _ h => h.1.1
  · exact anywhere (ticksHere (.findNext env path)) fun _ _ _ h => h.1
  · exact anywhere (actionHere contained type) fun _ _ _ h => h.1

/- The path leads to a directory of the volume from which no path has more edges. -/
structure Rank (t : DeleteRoot) (v : Volume) (n : Nat) (path : Wstr) (names : List Wstr) (d : Nat) :
    Prop where
  path : path = t.base ++ joinDirs backslash names
  clear : ∀ name ∈ names, backslash ∉ name
  leads : v.resolve t.root names = some d
  deep : Depth v.edges n d

def Ranked (t : DeleteRoot) (v : Volume) (n : Nat) (path : Wstr) : Prop :=
  ∃ names d, t.Rank v n path names d

theorem rankDirAt {n d : Nat} {path : Wstr} {names : List Wstr} (rank : t.Rank v n path names d)
    (w : Volume) : t.dirAt w path = w.resolve t.root names := by
  have split := Parts.splitText ⟨names,[],rank.clear,by simp⟩
  rw [Parts.text,List.append_nil] at split
  rw [dirAt,parts,rank.path,List.drop_left,split,if_pos (by simp),List.dropLast_concat]

theorem rankStep {n d : Nat} {path : Wstr} {names : List Wstr} {e : Entry}
    (rank : t.Rank v n path names d) (mem : e ∈ v.listing d) (directory : e.node.leads.isSome) :
    ∃ m, n = m+1 ∧ t.Ranked v m (path ++ e.name ++ [backslash]) := by
  obtain ⟨next,leads⟩ := Option.isSome_iff_exists.mp directory
  obtain ⟨m,rfl,deep⟩ := rank.deep.step (Volume.edgeOf mem leads)
  refine ⟨m,rfl,names ++ [e.name],next,by simp [rank.path],fun name here => ?_,?_,deep⟩
  · rcases List.mem_append.mp here with old | new
    · exact rank.clear name old
    · exact List.mem_singleton.mp new ▸ Volume.listingClear mem
  · exact Volume.resolveMember rank.leads mem leads

theorem walkRanked (contained : v.Contained t.root) :
    (t.api env).Ranked (t.action env) (t.Safe v) (t.Ranked v) := by
  have lasting {e : Stop} {s : DeleteState} (h : t.Halts v e s) : DirApi.NotOutOfFuel e s := h.2
  refine ⟨fun _ _ h => ⟨h.left,h.removed⟩,fun path => ?_,fun path => ?_,fun path listed => ?_,
    fun type path => ?_⟩
  · exact (openListedHere path path).weaken (fun _ h => h) (fun _ _ h => h) fun _ _ => lasting
  · refine (findFirstHere path path).weaken (fun _ h => h) (fun found s h => ⟨h.1,?_⟩)
      fun _ _ => lasting
    obtain ⟨here,d,there,rfl⟩ := h
    rintro n ⟨names,d',rank⟩ e mem visited directory
    obtain ⟨entry,listed,rfl⟩ : ∃ entry ∈ s.volume.listing d, Entry.found entry = e := by
      rcases List.mem_cons.mp mem with rfl | mem
      · exact absurd rfl visited.1
      · rcases List.mem_cons.mp mem with rfl | mem
        · exact absurd rfl visited.2.1
        · exact List.mem_map.mp mem
    rw [rankDirAt rank] at there
    have same := rank.leads.symm.trans (here.1.left.resolve there)
    cases same
    exact rankStep rank ((here.1.left _).subset listed) directory
  · exact (ticksHere (.findNext env listed) path).weaken (fun _ h => h) (fun _ _ h => h)
      fun _ _ => lasting
  · exact (actionHere contained type path).weaken (fun _ h => h) (fun _ _ h => h) fun _ _ => lasting

/- On such a volume the deletion ends, and however far it gets it has taken out nothing but what
lies in the directory. -/
theorem deletesInside (contained : v.Contained t.root) (env : FsEnv) :
    (∃ enough, ∀ fuel, enough ≤ fuel →
      (t.deleteDirectory env fuel (t.begins v)).1 ≠ .error .outOfFuel) ∧
    ∀ fuel, ∀ gone ∈ (t.deleteDirectory env fuel (t.begins v)).2.removed, gone.Inside v t.root := by
  have safe : t.Safe v (t.begins v) := ⟨.refl v,by simp [begins]⟩
  constructor
  · obtain ⟨n,deep⟩ := depthOfAcc contained.ends
    refine ⟨n+1,fun fuel enough => ?_⟩
    have rank : t.Ranked v n t.base := ⟨[],t.root,by simp,by simp,rfl,deep⟩
    have ends := (@walkRanked t env v contained).walk rank enough (t.begins v) ⟨safe,rfl⟩
    rw [deleteDirectory,DirApi.enumDirectory]
    cases run : (t.api env).enumRec (t.action env) fuel false (t.begins v) with
    | mk outcome s =>
      rw [run] at ends
      cases outcome with
      | ok _ => exact nofun
      | error e => exact fun same => ends (Except.error.inj same)
  · intro fuel
    have kept : Program.Keeps (t.Safe v) (t.deleteDirectory env fuel) :=
      (walkSafe contained).walk fuel false
    exact (kept.final safe).removed

end DeleteRoot

def deletedRoot : DeleteRoot := ⟨wstr "\\\\?\\C:\\s\\",0⟩

def innerJunction : Volume := .ofRows
  [[⟨wstr "j",.reparse 1⟩,⟨wstr "d",.dir 1⟩],[⟨wstr "f",.file⟩]] (by decide) (by decide)

theorem innerContained : innerJunction.Contained deletedRoot.root := by
  have from0 : innerJunction.edges 0 = [1,1] := by decide
  have from1 : innerJunction.edges 1 = [] := by decide
  have last : Acc (fun b a => b ∈ innerJunction.edges a) 1 :=
    ⟨1,fun b edge => by simp [from1] at edge⟩
  refine ⟨⟨0,fun b edge => ?_⟩,fun d reached _ => ?_⟩
  · obtain rfl : b = 1 := by simpa [from0] using edge
    exact last
  · rcases Relation.ReflTransGen.cases_head reached with rfl | ⟨b,edge,further⟩
    · exact .refl
    · obtain rfl : b = 1 := by simpa [deletedRoot,from0] using edge
      rcases Relation.ReflTransGen.cases_head further with rfl | ⟨c,edge,_⟩
      · exact .single (by decide)
      · simp [from1] at edge

theorem deletesInsideJunction :
    (∃ enough, ∀ fuel, enough ≤ fuel → (deletedRoot.deleteDirectory plainFs fuel
      (deletedRoot.begins innerJunction)).1 ≠ .error .outOfFuel) ∧
    ∀ fuel, ∀ gone ∈ (deletedRoot.deleteDirectory plainFs fuel
      (deletedRoot.begins innerJunction)).2.removed, gone.Inside innerJunction deletedRoot.root :=
  DeleteRoot.deletesInside innerContained plainFs

def outerJunction : Volume := .ofRows
  [[⟨wstr "j",.reparse 1⟩],[⟨wstr "f",.file⟩]] (by decide) (by decide)

theorem junctionLeadsOut : ¬ ∀ (t : DeleteRoot) (v : Volume) (env : FsEnv),
    (∃ enough, ∀ fuel, enough ≤ fuel →
      (t.deleteDirectory env fuel (t.begins v)).1 ≠ .error .outOfFuel) ∧
    ∀ fuel, ∀ gone ∈ (t.deleteDirectory env fuel (t.begins v)).2.removed, gone.Inside v t.root := by
  intro always
  have gone : .entry 1 (wstr "f") ∈ (deletedRoot.deleteDirectory plainFs 2
      (deletedRoot.begins outerJunction)).2.removed := by decide +kernel
  have inside : outerJunction.Inside 0 1 := (always deletedRoot outerJunction plainFs).2 2 _ gone
  have none' : outerJunction.subdirs 0 = [] := by decide
  rcases Relation.ReflTransGen.cases_head inside with same | ⟨b,edge,_⟩
  · cases same
  · simp [none'] at edge

end LxRunOffline
