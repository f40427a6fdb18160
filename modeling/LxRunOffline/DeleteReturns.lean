import LxRunOffline.DeleteWhole
import LxRunOffline.Shape

/-! A directory below which stand files and directories only: where every call succeeds, its
deletion returns. The walk through a subdirectory leaves everything outside as it was, but for the
entry of the subdirectory, so that what is still to come is found as it has been listed. -/
namespace LxRunOffline

namespace Volume
variable {v w w' : Volume} {root d : Nat} {e : Entry}

/- Every directory stands in one place, and the names are those of entries. -/
structure Plain (v : Volume) (root : Nat) : Prop where
  ends : Acc (fun b a => b ∈ v.subdirs a) root
  there : (v.entries root).isSome
  real : ∀ d, v.Inside root d → ∀ e ∈ v.listing d, e.node = .file ∨ ∃ id, e.node = .dir id ∧ (v.entries id).isSome
  once : ∀ d d' id, ∀ e ∈ v.listing d, ∀ e' ∈ v.listing d', e.node = .dir id → e'.node = .dir id → d = d' ∧ e = e'
  named : ∀ d, v.Inside root d → ∀ e ∈ v.listing d, e.name ≠ dotName ∧ e.name ≠ dotDotName

namespace Plain
variable {names : List Wstr} {id : Nat}

theorem subdir (mem : e ∈ v.listing d) (dir : e.node = .dir id) : id ∈ v.subdirs d :=
  List.mem_filterMap.mpr ⟨e,mem,by rw [dir]; rfl⟩

theorem subdirSource (edge : id ∈ v.subdirs d) : ∃ e ∈ v.listing d, e.node = .dir id := by
  obtain ⟨e,mem,sub⟩ := List.mem_filterMap.mp edge
  refine ⟨e,mem,?_⟩
  cases node : e.node with
  | dir other => rw [node] at sub; exact congrArg Node.dir (Option.some.inj sub)
  | file => rw [node] at sub; cases sub
  | reparse target => rw [node] at sub; cases sub

theorem oneParent (plain : v.Plain root) (a b c : Nat) (first : c ∈ v.subdirs a) (second : c ∈ v.subdirs b) :
    a = b := by
  obtain ⟨e,mem,dir⟩ := subdirSource first
  obtain ⟨e',mem',dir'⟩ := subdirSource second
  exact (plain.once a b c e mem e' mem' dir dir').1

theorem above (plain : v.Plain root) (inside : v.Inside root d) (mem : e ∈ v.listing d) (dir : e.node = .dir id) :
    ¬ v.Inside id d := fun back => noCircle plain.ends inside (subdir mem dir) back

theorem beside (plain : v.Plain root) (inside : v.Inside root d) {e' : Entry} {id' x : Nat} (mem : e ∈ v.listing d)
    (mem' : e' ∈ v.listing d) (dir : e.node = .dir id) (dir' : e'.node = .dir id') (other : e ≠ e')
    (here : v.Inside id x) : ¬ v.Inside id' x := by
  have apart {f g : Entry} {a b : Nat} (memF : f ∈ v.listing d) (memG : g ∈ v.listing d) (dirF : f.node = .dir a)
      (dirG : g.node = .dir b) (other : f ≠ g) : ¬ v.Inside a b := by
    intro below
    rcases Relation.ReflTransGen.cases_tail below with same | ⟨y,upper,edge⟩
    · subst same
      exact other (plain.once d d b f memF g memG dirF dirG).2
    · have parent := plain.oneParent y d b edge (subdir memG dirG)
      exact plain.above inside memF dirF (parent ▸ upper)
  exact fun there => (leadsEither plain.oneParent here there).elim (apart mem mem' dir dir' other)
    (apart mem' mem dir' dir (Ne.symm other))

theorem resolveInside (plain : v.Plain root) {r : Nat} (inside : v.Inside root r) (leads : v.resolve r names = some d) :
    v.Inside r d := by
  induction names generalizing r with
  | nil =>
    cases leads
    exact .refl
  | cons name names ih =>
    obtain ⟨e,found,rest⟩ := Option.bind_eq_some_iff.mp leads
    obtain ⟨next,onward,further⟩ := Option.bind_eq_some_iff.mp rest
    have mem := (findSource found).1
    rcases plain.real r inside e mem with file | ⟨id,dir,-⟩
    · rw [file] at onward
      cases onward
    · rw [dir] at onward
      obtain rfl : id = next := Option.some.inj onward
      have edge := subdir mem dir
      exact .head edge (ih (inside.tail edge) further)

theorem resolveAbove (plain : v.Plain root) {r : Nat} (inside : v.Inside root r) (left : Left v w)
    (leads : w.resolve r names = some d) (same : ∀ x, ¬ v.Inside d x → w'.entries x = w.entries x) :
    w'.resolve r names = some d := by
  induction names generalizing r with
  | nil => exact leads
  | cons name names ih =>
    obtain ⟨e,found,rest⟩ := Option.bind_eq_some_iff.mp leads
    obtain ⟨next,onward,further⟩ := Option.bind_eq_some_iff.mp rest
    have mem := (findSource (left.find found)).1
    rcases plain.real r inside e mem with file | ⟨id,dir,-⟩
    · rw [file] at onward
      cases onward
    · rw [dir] at onward
      obtain rfl : id = next := Option.some.inj onward
      have edge := subdir mem dir
      have down := plain.resolveInside (inside.tail edge) (left.resolve further)
      have apart : ¬ v.Inside d r := fun back => noCircle plain.ends inside edge (down.trans back)
      have listed : w'.find r name = w.find r name := by rw [find,find,listing,listing,same r apart]
      rw [resolve,listed,found,Option.bind_some,dir]
      exact ih (inside.tail edge) further

theorem edge (plain : v.Plain root) (inside : v.Inside root d) {b : Nat} (edge : b ∈ v.edges d) : b ∈ v.subdirs d := by
  obtain ⟨e,mem,leads⟩ := List.mem_filterMap.mp edge
  rcases plain.real d inside e mem with file | ⟨id,dir,-⟩
  · rw [file] at leads
    cases leads
  · rw [dir] at leads
    obtain rfl : id = b := Option.some.inj leads
    exact subdir mem dir

theorem contained (plain : v.Plain root) : v.Contained root where
  ends := by
    have all {a : Nat} (ends : Acc (fun b a => b ∈ v.subdirs a) a) (inside : v.Inside root a) :
        Acc (fun b a => b ∈ v.edges a) a := by
      induction ends with
      | intro a _ ih => exact ⟨a,fun b step => ih b (plain.edge inside step) (inside.tail (plain.edge inside step))⟩
    exact all plain.ends .refl
  inside d reached some' := by
    clear some'
    induction reached with
    | refl => exact .refl
    | tail _ step ih => exact ih.tail (plain.edge ih step)

end Plain

theorem removedHere (w : Volume) (d : Nat) (name : Wstr) :
    (w.removeEntry d name).entries d = (w.entries d).map (·.filter (·.name ≠ name)) := if_pos rfl

theorem removedElsewhere (w : Volume) {x : Nat} (name : Wstr) (other : x ≠ d) :
    (w.removeEntry d name).entries x = w.entries x := if_neg other

theorem droppedElsewhere (w : Volume) {x : Nat} (other : x ≠ d) : (w.dropDirectory d).entries x = w.entries x :=
  if_neg other

theorem resolveSnoc {names : List Wstr} {name : Wstr} {r : Nat} (leads : w.resolve r (names ++ [name]) = some d) :
    ∃ p e, w.resolve r names = some p ∧ w.find p name = some e ∧ e.node.leads = some d := by
  induction names generalizing r with
  | nil =>
    obtain ⟨e,found,rest⟩ := Option.bind_eq_some_iff.mp leads
    obtain ⟨next,onward,further⟩ := Option.bind_eq_some_iff.mp rest
    cases further
    exact ⟨r,e,rfl,found,onward⟩
  | cons first names ih =>
    obtain ⟨e,found,rest⟩ := Option.bind_eq_some_iff.mp leads
    obtain ⟨next,onward,further⟩ := Option.bind_eq_some_iff.mp rest
    obtain ⟨p,f,there,last⟩ := ih further
    refine ⟨p,f,?_,last⟩
    rw [resolve,found,Option.bind_some,onward,Option.bind_some,there]

end Volume
namespace DeleteRoot
open Program (Triple)
variable {t : DeleteRoot} {env : FsEnv} {v w : Volume} {names : List Wstr} {d id : Nat} {path : Wstr} {e : Entry}
  {rest : List Entry} {s u : DeleteState}

structure Ready (t : DeleteRoot) (v : Volume) (names : List Wstr) (d : Nat) (s : DeleteState) : Prop where
  left : Volume.Left v s.volume
  leads : s.volume.resolve t.root names = some d
  whole : ∀ x, v.Inside d x → s.volume.entries x = v.entries x

/- In the directory the listed entries are still there, with what lies in them; outside all is as it
was in `w`. -/
structure Going (t : DeleteRoot) (v w : Volume) (names : List Wstr) (d : Nat) (rest : List Entry) (s : DeleteState) :
    Prop where
  left : Volume.Left v s.volume
  leads : s.volume.resolve t.root names = some d
  here : s.volume.entries d = some rest
  whole : ∀ e ∈ rest, ∀ id, e.node = .dir id → ∀ x, v.Inside id x → s.volume.entries x = v.entries x
  frame : ∀ x, ¬ v.Inside d x → s.volume.entries x = w.entries x

structure Passed (v w : Volume) (p : Nat) (e : Entry) (s : DeleteState) : Prop where
  left : Volume.Left v s.volume
  frame : ∀ x, (∀ id, e.node = .dir id → ¬ v.Inside id x) → s.volume.entries x = (w.removeEntry p e.name).entries x

theorem Ready.going (h : t.Ready v names d s) (listed : (v.entries d).isSome) :
    t.Going v s.volume names d (v.listing d) s where
  left := h.left
  leads := h.leads
  here := by
    obtain ⟨es,is⟩ := Option.isSome_iff_exists.mp listed
    rw [h.whole d .refl,Volume.listing,is]
    rfl
  whole e mem id dir x below := h.whole x (.head (Volume.Plain.subdir mem dir) below)
  frame _ _ := rfl

theorem Going.listing (h : t.Going v w names d rest s) : s.volume.listing d = rest := by
  rw [Volume.listing,h.here]
  rfl

theorem Going.passed (plain : v.Plain t.root) (inside : v.Inside t.root d) (h : t.Going v w names d (e :: rest) s)
    (passed : Passed v s.volume d e u) : t.Going v w names d rest u := by
  have mem : e ∈ v.listing d := (h.left d).subset (h.listing ▸ List.mem_cons_self)
  have unique := List.nodup_cons.mp (h.listing ▸ s.volume.listingUnique d : ((e :: rest).map Entry.name).Nodup)
  have outside {x : Nat} (out : ¬ v.Inside d x) : u.volume.entries x = s.volume.entries x := by
    have other : x ≠ d := fun same => out (same ▸ Relation.ReflTransGen.refl)
    rw [passed.frame x fun id dir below => out (.head (Volume.Plain.subdir mem dir) below),
      Volume.removedElsewhere _ _ other]
  refine ⟨passed.left,plain.resolveAbove .refl h.left h.leads fun x out => outside out,?_,?_,fun x out => ?_⟩
  · rw [passed.frame d fun id dir => plain.above inside mem dir,Volume.removedHere,h.here]
    have kept : rest.filter (fun f => f.name ≠ e.name) = rest := by
      refine List.filter_eq_self.mpr fun f there => ?_
      have other : f.name ≠ e.name := fun same => unique.1 (same ▸ List.mem_map_of_mem there)
      simpa using other
    simpa using kept
  · intro f there id dir x below
    have memF : f ∈ v.listing d := (h.left d).subset (h.listing ▸ List.mem_cons_of_mem _ there)
    have other : f ≠ e := fun same => unique.1 (same ▸ List.mem_map_of_mem there)
    have apart : x ≠ d := fun same => plain.above inside memF dir (same ▸ below)
    rw [passed.frame x fun id' dir' => plain.beside inside memF mem dir dir' other below,
      Volume.removedElsewhere _ _ apart]
    exact h.whole f (List.mem_cons_of_mem _ there) id dir x below
  · rw [outside out,h.frame x out]

theorem partsFile {n : Nat} (rank : t.Rank v n path names d) (clear : backslash ∉ e.name) :
    t.parts (path ++ e.name) = names ++ [e.name] := by
  have split := Parts.splitText ⟨names,e.name,rank.clear,clear⟩
  rw [parts,rank.path,List.append_assoc,List.drop_left]
  exact split

theorem partsDirectory {n : Nat} (rank : t.Rank v n path names d) : (t.parts path).dropLast = names := by
  have split := Parts.splitText ⟨names,[],rank.clear,List.not_mem_nil⟩
  rw [Parts.text,List.append_nil] at split
  rw [parts,rank.path,List.drop_left,split,List.dropLast_concat]

theorem entryAtSnoc (leads : w.resolve t.root names = some d) (mem : e ∈ w.listing d) :
    t.entryAt w (names ++ [e.name]) = some (d,e) := by
  simp [entryAt,leads,Volume.findMember mem]

theorem callDone (works : env.Works) (c : FsCall) (s : DeleteState) : Fs.call env c s = (.ok 0,Clocked.tick s) := by
  rw [Fs.call,Fs.ask,works.status]

theorem removeDone (works : env.Works) (dir : Bool) {gone : Removed} {left : Volume}
    (done : t.unlink s.volume dir s.data = .ok (gone,left)) :
    t.remove env dir s = (.ok (),{Clocked.tick s with volume := left, removed := s.removed ++ [gone]}) := by
  rw [remove,Program.bindOk (Program.getRun s),Program.bindOk (callDone works _ s),if_neg (by simp),done]
  rfl

abbrev Done (t : DeleteRoot) (env : FsEnv) (path : Wstr) (before after : DeleteState → Prop) {α : Type}
    (x : Delete α) : Prop :=
  Triple ((t.api env).At before path) x (fun _ => (t.api env).At after path) fun _ _ => False

theorem fileDone (works : env.Works) (plain : v.Plain t.root) (inside : v.Inside t.root d) {n : Nat}
    (rank : t.Rank v n path names d) (file : e.node = .file) : t.Done env (path ++ e.name)
      (t.Going v w names d (e :: rest)) (t.Going v w names d rest) (t.action env .file) := by
  rintro s ⟨h,here⟩
  have mem : e ∈ s.volume.listing d := h.listing ▸ List.mem_cons_self
  have clear := Volume.listingClear mem
  have found : t.unlink s.volume false s.data = .ok (.entry d e.name,s.volume.removeEntry d e.name) := by
    have data : s.data = path ++ e.name := here
    obtain ⟨name,node⟩ := e
    obtain rfl : node = .file := file
    rw [data,unlink,if_neg Bool.false_ne_true,partsFile rank clear,unlinkFile,entryAtSnoc h.leads mem]
  have run : t.action env .file s = _ := removeDone works false found
  rw [run]
  refine ⟨h.passed plain inside ⟨h.left.trans (s.volume.removedLeft d e.name),fun _ _ => rfl⟩,here⟩

theorem exitDone (works : env.Works) (plain : v.Plain t.root) {p n : Nat} (up : v.resolve t.root names = some p)
    (mem : e ∈ v.listing p) (dir : e.node = .dir id) (rank : t.Rank v n path (names ++ [e.name]) id) :
    t.Done env path (t.Going v w (names ++ [e.name]) id []) (Passed v w p e) (t.action env .exit) := by
  rintro s ⟨h,here⟩
  have inside := plain.resolveInside .refl up
  obtain ⟨q,f,there,found,leads⟩ := Volume.resolveSnoc h.leads
  obtain rfl : p = q := Option.some.inj (up.symm.trans (h.left.resolve there))
  obtain ⟨memF,named⟩ := Volume.findSource found
  obtain rfl : f = e := Volume.sameNamed ((h.left p).subset memF) mem named
  have done : t.unlink s.volume true s.data =
      .ok (.entry p f.name,(s.volume.removeEntry p f.name).dropDirectory id) := by
    have data : s.data = path := here
    have located := entryAtSnoc (t := t) there memF
    obtain ⟨name,node⟩ := f
    obtain rfl : node = .dir id := dir
    rw [data,unlink,if_pos rfl,partsDirectory rank,unlinkDirectory,if_neg (by simp),located]
    exact if_pos h.listing
  have run : t.action env .exit s = _ := removeDone works true done
  rw [run]
  refine ⟨⟨(h.left.trans (s.volume.removedLeft p f.name)).trans (Volume.droppedLeft _ id),fun x out => ?_⟩,here⟩
  have other : x ≠ id := fun same => out id dir (same ▸ Relation.ReflTransGen.refl)
  have frame := h.frame x (out id dir)
  change ((s.volume.removeEntry p f.name).dropDirectory id).entries x = _
  rw [Volume.droppedElsewhere _ other]
  by_cases above : x = p
  · subst above
    rw [Volume.removedHere,Volume.removedHere,frame]
  · rw [Volume.removedElsewhere _ _ above,Volume.removedElsewhere _ _ above,frame]

def Deeper (t : DeleteRoot) (env : FsEnv) (v : Volume) (names : List Wstr) (d : Nat) (path : Wstr)
    (descend : Delete Unit) :
    Prop :=
  ∀ e ∈ v.listing d, ∀ id, e.node = .dir id → ∀ w, t.Done env (path ++ e.name ++ [backslash])
    (fun s => t.Ready v (names ++ [e.name]) id s ∧ s.volume = w) (Passed v w d e) descend

theorem goingSet (data : Wstr) (s : DeleteState) (h : t.Going v w names d rest s) :
    t.Going v w names d rest ((t.api env).setData data s) := ⟨h.left,h.leads,h.here,h.whole,h.frame⟩

theorem Going.ready (h : t.Going v w names d (e :: rest) s) (dir : e.node = .dir id) :
    t.Ready v (names ++ [e.name]) id s where
  left := h.left
  leads := Volume.resolveMember h.leads (h.listing ▸ List.mem_cons_self) (by rw [dir]; rfl)
  whole := h.whole e List.mem_cons_self id dir

variable {descend : Delete Unit} {n : Nat}

theorem fileEntry (works : env.Works) (plain : v.Plain t.root) (inside : v.Inside t.root d)
    (rank : t.Rank v n path names d) (visited : DirApi.Visited false e.found) (file : e.node = .file) :
    t.Done env path (t.Going v w names d (e :: rest)) (t.Going v w names d rest)
      ((t.api env).enumEntry (t.action env) descend false path.length e.found) := by
  have flat : ¬ e.found.directory = true := by simp [Entry.found,file,Node.leads]
  rw [DirApi.enumEntry,Program.when,if_pos visited,DirApi.enumNamed,if_neg flat]
  exact .bind (DirApi.extendsAt goingSet e.name) fun _ => .bind (fileDone works plain inside rank file) fun _ =>
    DirApi.resizesAt goingSet e.name

theorem dirEntry (plain : v.Plain t.root) (inside : v.Inside t.root d) (deeper : t.Deeper env v names d path descend)
    (visited : DirApi.Visited false e.found) (mem : e ∈ v.listing d) (dir : e.node = .dir id) :
    t.Done env path (t.Going v w names d (e :: rest)) (t.Going v w names d rest)
      ((t.api env).enumEntry (t.action env) descend false path.length e.found) := by
  have deep : e.found.directory = true := by simp [Entry.found,dir,Node.leads]
  rw [DirApi.enumEntry,Program.when,if_pos visited,DirApi.enumNamed,if_pos deep]
  rintro s ⟨h,here⟩
  -- What the walk below leaves behind is compared with the volume that it has found.
  have start : (t.api env).At (fun u => t.Going v w names d (e :: rest) u ∧ u.volume = s.volume) path s :=
    ⟨⟨h,rfl⟩,here⟩
  have changed (data : Wstr) (u : DeleteState) (both : t.Going v w names d (e :: rest) u ∧ u.volume = s.volume) :
      t.Going v w names d (e :: rest) ((t.api env).setData data u) ∧ ((t.api env).setData data u).volume = s.volume :=
    ⟨goingSet data u both.1,both.2⟩
  have below : t.Done env (path ++ e.name ++ [backslash]) (fun u => t.Going v w names d (e :: rest) u ∧
      u.volume = s.volume) (t.Going v w names d rest) descend :=
    Triple.weaken (deeper e mem id dir s.volume) (fun _ both => ⟨⟨both.1.1.ready dir,both.1.2⟩,both.2⟩)
      (fun _ _ both => ⟨h.passed plain inside both.1,both.2⟩) fun _ _ no => no
  have back : Triple ((t.api env).At (t.Going v w names d rest) (path ++ e.name ++ [backslash]))
      ((t.api env).resize path.length) (fun _ => (t.api env).At (t.Going v w names d rest) path) fun _ _ => False := by
    rw [List.append_assoc]
    exact DirApi.resizesAt goingSet _
  exact Triple.bind (DirApi.extendsAt changed e.name) (fun _ =>
    .bind (.bind (DirApi.extendsAt changed [backslash]) fun _ => below) fun _ => back) s start

theorem nextDone (works : env.Works) (listed : Wstr) :
    Triple ((t.api env).At (t.Going v w names d rest) path) ((t.api env).findNext listed)
      (fun more s => more = true ∧ (t.api env).At (t.Going v w names d rest) path s) fun _ _ => False := by
  rintro s ⟨h,here⟩
  have run : Fs.findNext env listed s = (.ok true,Clocked.tick s) := by
    rw [Fs.findNext,Program.bindOk (callDone works _ s)]
    rfl
  change Program.Ends _ _ (Fs.findNext env listed s)
  rw [run]
  exact ⟨rfl,⟨h.left,h.leads,h.here,h.whole,h.frame⟩,here⟩

theorem entriesDone (works : env.Works) (plain : v.Plain t.root) (inside : v.Inside t.root d)
    (rank : t.Rank v n path names d) (deeper : t.Deeper env v names d path descend) {after : DeleteState → Prop}
    (exits : t.Done env path (t.Going v w names d []) after (t.action env .exit)) :
    t.Done env path (t.Going v w names d rest) after
      ((t.api env).enumEntries (t.action env) descend false path.length (rest.map Entry.found)) := by
  induction rest with
  | nil => exact exits
  | cons e rest ih =>
    have one : t.Done env path (t.Going v w names d (e :: rest)) (t.Going v w names d rest)
        ((t.api env).enumEntry (t.action env) descend false path.length e.found) := by
      rintro s ⟨h,here⟩
      have mem : e ∈ v.listing d := (h.left d).subset (h.listing ▸ List.mem_cons_self)
      have visited : DirApi.Visited false e.found :=
        ⟨(plain.named d inside e mem).1,(plain.named d inside e mem).2,.inl rfl⟩
      rcases plain.real d inside e mem with file | ⟨id,dir,-⟩
      · exact fileEntry works plain inside rank visited file s ⟨h,here⟩
      · exact dirEntry plain inside deeper visited mem dir s ⟨h,here⟩
    refine Triple.bind one fun _ => DirApi.Ranked.here (Triple.bind (nextDone works path) fun more s both => ?_)
    obtain ⟨rfl,there⟩ := both
    exact ih s there

theorem openedDone (works : env.Works) (rank : t.Rank v n path names d) :
    t.Done env path (t.Going v w names d rest) (t.Going v w names d rest) ((t.api env).openListed path) := by
  refine .get fun s h => .ite (fun _ => ?_) fun closed => absurd ?_ closed
  · intro u same
    have ticks := (Fs.Ticks.openListed env path : Fs.Ticks (Fs.openListed env path : Delete Unit)).keeps
      ((t.api env).At (t.Going v w names d rest) path) fun _ h =>
        ⟨⟨h.1.left,h.1.leads,h.1.here,h.1.whole,h.1.frame⟩,h.2⟩
    refine ticks.succeeds (fun s _ => ?_) u (same ▸ h)
    simp only [Fs.openListed,catchLro,Program.rescue,Fs.openFile,Fs.getWinBuild,Fs.setCsInfo,Program.bindRun,
      callDone works]
    by_cases build : env.build ≤ 20206 <;> simp [build,Program.bindRun,callDone works]
  · rw [rankDirAt rank,h.1.leads,Option.bind_some,h.1.here]
    rfl

theorem foundDone (works : env.Works) (rank : t.Rank v n path names d) :
    Triple ((t.api env).At (t.Going v w names d rest) path) ((t.api env).findFirst path) (fun found s =>
      found = ⟨dotName,true⟩ :: ⟨dotDotName,true⟩ :: rest.map Entry.found ∧
        (t.api env).At (t.Going v w names d rest) path s) fun _ _ => False := by
  rintro s ⟨h,here⟩
  have run : t.findFirst env path s = (.ok (⟨dotName,true⟩ :: ⟨dotDotName,true⟩ :: rest.map Entry.found),
      Clocked.tick s) := by
    have there : t.dirAt (Clocked.tick s).volume path = some d := (rankDirAt rank s.volume).trans h.leads
    have listing : (Clocked.tick s).volume.listing d = rest := h.listing
    rw [findFirst,Program.bindOk (callDone works _ s),if_neg (by simp),Program.bindOk (Program.getRun _),there]
    simp only [listing]
    rfl
  change Program.Ends _ _ (t.findFirst env path s)
  rw [run]
  exact ⟨rfl,⟨h.left,h.leads,h.here,h.whole,h.frame⟩,here⟩

theorem skipDone (works : env.Works) {found : List FindData} {hidden : FindData} (hides : ¬ DirApi.Visited false hidden)
    {after : DeleteState → Prop} (others : t.Done env path (t.Going v w names d rest) after
      ((t.api env).enumEntries (t.action env) descend false path.length found)) :
    t.Done env path (t.Going v w names d rest) after
      ((t.api env).enumEntries (t.action env) descend false path.length (hidden :: found)) := by
  refine Triple.bind (Triple.skip hides) fun _ =>
    DirApi.Ranked.here (Triple.bind (nextDone works path) fun more s both => ?_)
  obtain ⟨rfl,there⟩ := both
  exact others s there

theorem levelDone (works : env.Works) (plain : v.Plain t.root) (inside : v.Inside t.root d)
    (listed : (v.entries d).isSome) (rank : t.Rank v n path names d) {fuel : Nat}
    (deeper : t.Deeper env v names d path ((t.api env).enumRec (t.action env) fuel false)) {after : DeleteState → Prop}
    (exits : t.Done env path (t.Going v w names d []) after (t.action env .exit)) :
    t.Done env path (fun s => t.Ready v names d s ∧ s.volume = w) after
      ((t.api env).enumRec (t.action env) (fuel+1) false) := by
  rintro s ⟨⟨ready,rfl⟩,here⟩
  have walk : t.Done env path (t.Going v s.volume names d (v.listing d)) after
      ((t.api env).enumRec (t.action env) (fuel+1) false) := by
    have entered : t.Done env path (t.Going v s.volume names d (v.listing d)) (t.Going v s.volume names d (v.listing d))
        (t.action env .enter) := .ite (fun _ _ h => h) fun no => absurd rfl no
    refine DirApi.Ranked.here (.bind (openedDone works rank) fun _ => .bind entered fun _ => DirApi.Ranked.here ?_)
    refine .bind (Triple.skip Bool.false_ne_true) fun _ => DirApi.Ranked.here (.bind (foundDone works rank) ?_)
    rintro found u ⟨rfl,there⟩
    exact skipDone works (fun visited => visited.1 rfl) (skipDone works (fun visited => visited.2.1 rfl)
      (entriesDone works plain inside rank deeper exits)) u there
  exact walk s ⟨ready.going listed,here⟩

theorem rankBelow (rank : t.Rank v n path names d) (mem : e ∈ v.listing d) (dir : e.node = .dir id) :
    ∃ m, n = m+1 ∧ t.Rank v m (path ++ e.name ++ [backslash]) (names ++ [e.name]) id := by
  obtain ⟨m,rfl,deep⟩ := rank.deep.step (Volume.edgeOf mem (by rw [dir]; rfl))
  refine ⟨m,rfl,by simp [rank.path],fun name here => ?_,Volume.resolveMember rank.leads mem (by rw [dir]; rfl),deep⟩
  rcases List.mem_append.mp here with old | new
  · exact rank.clear name old
  · exact List.mem_singleton.mp new ▸ Volume.listingClear mem

theorem deeperDone (works : env.Works) (plain : v.Plain t.root) (rank : t.Rank v n path names d) {fuel : Nat}
    (enough : n ≤ fuel) : t.Deeper env v names d path ((t.api env).enumRec (t.action env) fuel false) := by
  -- The walk through the subdirectories: the induction is on the fuel, which goes down with the
  -- depth.
  induction fuel generalizing n path names d with
  | zero =>
    intro e mem id dir
    obtain ⟨m,rfl,-⟩ := rankBelow rank mem dir
    exact absurd enough (Nat.not_succ_le_zero m)
  | succ fuel ih =>
    intro e mem id dir w
    obtain ⟨m,rfl,below⟩ := rankBelow rank mem dir
    have inside := plain.resolveInside .refl rank.leads
    have within : v.Inside t.root id := inside.tail (Volume.Plain.subdir mem dir)
    have listed : (v.entries id).isSome := by
      rcases plain.real d inside e mem with file | ⟨other,dir',there⟩
      · rw [file] at dir
        cases dir
      · rw [dir] at dir'
        cases dir'
        exact there
    exact levelDone works plain within listed below (ih below (Nat.le_of_succ_le_succ enough))
      (exitDone works plain rank.leads mem dir below)

theorem deleteReturns (works : env.Works) (plain : v.Plain t.root) : ∃ enough, ∀ fuel clock, enough ≤ fuel →
    ∃ s, t.deleteDirectory env fuel {t.begins v with clock := clock} = (.ok (),s) := by
  obtain ⟨n,deep⟩ := depthOfAcc plain.contained.ends
  refine ⟨n+1,fun fuel clock enough => ?_⟩
  obtain ⟨k,rfl⟩ := Nat.exists_eq_add_of_le' (Nat.le_trans (Nat.le_add_left 1 n) enough)
  have rank : t.Rank v n t.base [] t.root := ⟨by simp,by simp,rfl,deep⟩
  have exits : t.Done env t.base (t.Going v v [] t.root []) (fun _ => True) (t.action env .exit) := by
    rintro s ⟨h,here⟩
    have done : t.unlink s.volume true s.data = .ok (.given,s.volume.dropDirectory t.root) := by
      have data : s.data = t.base := here
      rw [data,unlink,if_pos rfl,partsDirectory rank,unlinkDirectory,if_pos rfl,if_pos h.listing]
    have run : t.action env .exit s = _ := removeDone works true done
    rw [run]
    exact ⟨trivial,here⟩
  have walk := levelDone (w := v) works plain .refl plain.there rank
    (deeperDone works plain rank (Nat.le_of_succ_le_succ enough)) exits
    {t.begins v with clock := clock} ⟨⟨⟨.refl v,rfl,fun _ _ => rfl⟩,rfl⟩,rfl⟩
  rw [deleteDirectory,DirApi.enumDirectory]
  cases run : (t.api env).enumRec (t.action env) (k+1) false {t.begins v with clock := clock} with
  | mk outcome s =>
    rw [run] at walk
    cases outcome with
    | ok a => exact ⟨s,rfl⟩
    | error e => exact walk.elim

/- A deletion that returns has taken out the directory and all that lay in it, however the calls have
ended. It returns where every call succeeds and no reparse points stand in the tree. -/
theorem deletesWhole (t : DeleteRoot) (v : Volume) (env : FsEnv) :
    (∀ fuel s, t.deleteDirectory env fuel (t.begins v) = (.ok (),s) → t.Whole v s.removed) ∧
    (env.Works → v.Plain t.root → ∃ enough, ∀ fuel, enough ≤ fuel →
      ∃ s, t.deleteDirectory env fuel (t.begins v) = (.ok (),s)) := by
  refine ⟨fun fuel s run => deletedWhole run,fun works plain => ?_⟩
  obtain ⟨enough,returns⟩ := @deleteReturns t env v works plain
  exact ⟨enough,fun fuel more => returns fuel 0 more⟩

end DeleteRoot

def filledVolume : Volume := .ofRows
  [[⟨wstr "d",.dir 1⟩,⟨wstr "g",.file⟩],[⟨wstr "f",.file⟩]] (by decide) (by decide)

theorem filledListed {d : Nat} {e : Entry} (mem : e ∈ filledVolume.listing d) :
    (d = 0 ∧ e = ⟨wstr "d",.dir 1⟩) ∨ (d = 0 ∧ e = ⟨wstr "g",.file⟩) ∨ (d = 1 ∧ e = ⟨wstr "f",.file⟩) := by
  match d with
  | 0 => exact (List.mem_pair.mp mem).imp (fun is => ⟨rfl,is⟩) fun is => .inl ⟨rfl,is⟩
  | 1 => exact .inr (.inr ⟨rfl,List.mem_singleton.mp mem⟩)
  | d+2 => cases mem

theorem filledPlain : filledVolume.Plain deletedRoot.root where
  ends := ⟨_,fun b edge => by
    obtain rfl : b = 1 := List.mem_singleton.mp edge
    exact ⟨_,fun c edge => nomatch (edge : c ∈ ([] : List Nat))⟩⟩
  there := rfl
  real d _ e mem := by
    rcases filledListed mem with ⟨-,rfl⟩ | ⟨-,rfl⟩ | ⟨-,rfl⟩
    · exact .inr ⟨1,rfl,rfl⟩
    · exact .inl rfl
    · exact .inl rfl
  once d d' id e mem e' mem' dir dir' := by
    rcases filledListed mem with ⟨rfl,rfl⟩ | ⟨rfl,rfl⟩ | ⟨rfl,rfl⟩
    · rcases filledListed mem' with ⟨rfl,rfl⟩ | ⟨rfl,rfl⟩ | ⟨rfl,rfl⟩
      · exact ⟨rfl,rfl⟩
      · cases dir'
      · cases dir'
    · cases dir
    · cases dir
  named d _ e mem := by rcases filledListed mem with ⟨-,rfl⟩ | ⟨-,rfl⟩ | ⟨-,rfl⟩ <;> decide

theorem deletesWholeFilled : ∃ enough, ∀ fuel, enough ≤ fuel → ∃ s,
    deletedRoot.deleteDirectory plainFs fuel (deletedRoot.begins filledVolume) = (.ok (),s) ∧
      deletedRoot.Whole filledVolume s.removed := by
  obtain ⟨done,returns⟩ := DeleteRoot.deletesWhole deletedRoot filledVolume plainFs
  obtain ⟨enough,ends⟩ := returns plainWorks filledPlain
  refine ⟨enough,fun fuel more => ?_⟩
  obtain ⟨s,run⟩ := ends fuel more
  exact ⟨s,run,done fuel s run⟩

end LxRunOffline
