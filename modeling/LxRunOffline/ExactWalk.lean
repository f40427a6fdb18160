import LxRunOffline.TreeCalls

/-! `enum_directory` on a tree that stays as it is: the calls of the callback are those that the
tree asks for, in the order of the listings. The rule speaks of any callback that returns and leaves
the path alone, and of any condition on the calls made so far. -/
namespace LxRunOffline
namespace DirApi
open Program (Triple)
open WslReader.Traversal (shown hiddenFile hiddenDir shownFile shownDir hiddenPassed shownVisited)
variable {σ : Type}

def Never : Stop → σ → Prop := fun _ _ => False

def Listing (t : Tree) (found : List FindData) : Prop :=
  (found.filter fun e => Visited false e) = t.entries

/- What every step of a walk through the tree makes of a condition on the calls that lie behind. -/
structure Traces (api : DirApi σ) (action : EnumDirType → Program Stop σ Unit) (base : Wstr) (t : Tree)
    (inv : List Call → σ → Prop) : Prop where
  set : ∀ {done s} d, inv done s → inv done (api.setData d s)
  opened : ∀ {dirs done}, (t.descend dirs).isSome →
    Triple (api.At (inv done) (base ++ joinDirs backslash dirs))
      (api.openListed (base ++ joinDirs backslash dirs))
      (fun _ => api.At (inv done) (base ++ joinDirs backslash dirs)) Never
  first : ∀ {dirs sub done}, t.descend dirs = some sub →
    Triple (api.At (inv done) (base ++ joinDirs backslash dirs))
      (api.findFirst (base ++ joinDirs backslash dirs)) (fun found s =>
        Listing sub found ∧ api.At (inv done) (base ++ joinDirs backslash dirs) s) Never
  next : ∀ {done path}, Triple (api.At (inv done) path) (api.findNext path)
    (fun more s => more = true ∧ api.At (inv done) path s) Never
  acts : ∀ {done path} kind, Triple (api.At (inv done) path) (action kind)
    (fun _ => api.At (inv (done ++ [(kind,path)])) path) Never

namespace Traces
variable {api : DirApi σ} {action : EnumDirType → Program Stop σ Unit} {base : Wstr} {t : Tree}
  {inv : List Call → σ → Prop} {done after : List Call} {path name : Wstr} {isRoot : Bool}
  {descend : Program Stop σ Unit}

theorem extending (traces : api.Traces action base t inv) (text : Wstr) :
    Triple (api.At (inv done) path) (api.extend text) (fun _ => api.At (inv done) (path ++ text))
      Never := extendsAt (fun d _ => traces.set d) text

theorem resizing (traces : api.Traces action base t inv) (text : Wstr) :
    Triple (api.At (inv done) (path ++ text)) (api.resize path.length)
      (fun _ => api.At (inv done) path) Never := resizesAt (fun d _ => traces.set d) text

theorem fileEntry (traces : api.Traces action base t inv) (visited : Visited isRoot ⟨name,false⟩) :
    Triple (api.At (inv done) path) (api.enumEntry action descend isRoot path.length ⟨name,false⟩)
      (fun _ => api.At (inv (done ++ [(.file,path ++ name)])) path) Never := by
  rw [enumEntry,Program.when,if_pos visited]
  refine .bind (traces.extending name) fun _ => .bind ?_ fun _ => traces.resizing name
  rw [enumNamed,if_neg Bool.false_ne_true]
  exact traces.acts .file

theorem dirEntry (traces : api.Traces action base t inv) (visited : Visited isRoot ⟨name,true⟩)
    (deeper : Triple (api.At (inv done) (path ++ name ++ [backslash])) descend
      (fun _ => api.At (inv after) (path ++ name ++ [backslash])) Never) :
    Triple (api.At (inv done) path) (api.enumEntry action descend isRoot path.length ⟨name,true⟩)
      (fun _ => api.At (inv after) path) Never := by
  rw [enumEntry,Program.when,if_pos visited]
  have back := @resizing _ api action base t inv after path traces (name ++ [backslash])
  rw [← List.append_assoc] at back
  refine .bind (traces.extending name) fun _ => .bind ?_ fun _ => back
  rw [enumNamed,if_pos rfl]
  exact .bind (traces.extending [backslash]) fun _ => deeper

theorem onward (traces : api.Traces action base t inv) {others : Program Stop σ Unit}
    (next : Triple (api.At (inv done) path) others (fun _ => api.At (inv after) path) Never) :
    Triple (api.At (inv done) path) (api.current >>= fun listed => api.findNext listed >>= fun more =>
      if more = true then others else action .exit) (fun _ => api.At (inv after) path) Never := by
  refine Ranked.here (.bind traces.next fun more s hs => ?_)
  obtain ⟨rfl,hs⟩ := hs
  exact next s hs

theorem passing (traces : api.Traces action base t inv) {entry : FindData} {found : List FindData}
    (hidden : ¬ Visited isRoot entry)
    (next : Triple (api.At (inv done) path) (api.enumEntries action descend isRoot path.length found)
      (fun _ => api.At (inv after) path) Never) :
    Triple (api.At (inv done) path)
      (api.enumEntries action descend isRoot path.length (entry :: found))
      (fun _ => api.At (inv after) path) Never := by
  rw [enumEntries]
  exact .bind (.skip hidden) fun _ => traces.onward next

theorem entriesWalk (traces : api.Traces action base t inv) {sub u : Tree} (proper : sub.Proper)
    (deeper : ∀ {name info below rest done}, sub.Ends (.dir name info below rest) →
      Triple (api.At (inv done) (path ++ name ++ [backslash])) descend (fun _ => api.At
        (inv (done ++ surrounded (path ++ name ++ [backslash])
          (below.calls (path ++ name ++ [backslash])))) (path ++ name ++ [backslash])) Never)
    {found : List FindData} (listing : Listing u found) (ends : sub.Ends u) :
    Triple (api.At (inv done) path) (api.enumEntries action descend isRoot path.length found)
      (fun _ => api.At (inv (done ++ (shown isRoot u).calls path ++ [(.exit,path)])) path) Never := by
  -- By induction on the listing: `u` is what it has still to show.
  induction found generalizing u done with
  | nil =>
    have none' : (shown isRoot u).calls path = [] := by
      cases u with
      | nil => cases isRoot <;> rfl
      | file name info rest => cases listing
      | dir name info sub rest => cases listing
    rw [none',List.append_nil]
    exact traces.acts .exit
  | cons entry found ih =>
    by_cases dot : Visited false entry
    · rw [Listing,List.filter_cons_of_pos (by simpa using dot)] at listing
      cases u with
      | nil => cases listing
      | file name info rest =>
        obtain ⟨rfl,later⟩ := List.cons.inj listing
        have next {done : List Call} := @ih done rest later ends.file
        by_cases hidden : isRoot = true ∧ name = rootfsName
        · rw [hiddenFile hidden]
          exact traces.passing (hiddenPassed hidden false) next
        · have visited := shownVisited (ends.proper proper).1 hidden false
          rw [shownFile hidden,enumEntries,Tree.calls,← List.singleton_append,← List.append_assoc]
          exact .bind (traces.fileEntry visited) fun _ => traces.onward next
      | dir name info below rest =>
        obtain ⟨rfl,later⟩ := List.cons.inj listing
        have next {done : List Call} := @ih done rest later ends.dir
        by_cases hidden : isRoot = true ∧ name = rootfsName
        · rw [hiddenDir hidden]
          exact traces.passing (hiddenPassed hidden true) next
        · have visited := shownVisited (ends.proper proper).1 hidden true
          rw [shownDir hidden,enumEntries,Tree.calls,← List.append_assoc]
          exact .bind (traces.dirEntry visited (deeper ends)) fun _ => traces.onward next
    · rw [Listing,List.filter_cons_of_neg (by simpa using dot)] at listing
      have hidden : ¬ Visited isRoot entry := fun visited => dot ⟨visited.1,visited.2.1,.inl rfl⟩
      exact traces.passing hidden (ih listing ends)

theorem below {dirs : List Wstr} {sub : Tree} (there : t.descend dirs = some sub) {name : Wstr}
    {info : NodeInfo} {inner rest : Tree} (proper : sub.Proper) (ends : sub.Ends (.dir name info inner rest)) :
    t.descend (dirs ++ [name]) = some inner ∧ inner.Proper ∧ inner.depth < sub.depth := by
  have found := ends.findsDir proper
  obtain ⟨proper',lower⟩ := Tree.findDirProper proper found
  refine ⟨?_,proper',lower⟩
  rw [Tree.descendAppend,there,Option.bind_some,Tree.descend,found]
  rfl

theorem dirWalk (traces : api.Traces action base t inv) {fuel : Nat} {dirs : List Wstr} {sub : Tree}
    (there : t.descend dirs = some sub) (proper : sub.Proper) (deep : sub.depth < fuel)
    (same : path = base ++ joinDirs backslash dirs) :
    Triple (api.At (inv done) path) (api.enumRec action fuel false)
      (fun _ => api.At (inv (done ++ surrounded path (sub.calls path))) path) Never := by
  -- By induction on the fuel, which bounds the depth: a directory below the root.
  induction fuel generalizing dirs sub done path with
  | zero => exact absurd deep (Nat.not_lt_zero _)
  | succ fuel ih =>
    subst same
    rw [enumRec]
    refine Ranked.here (.bind (traces.opened (by rw [there]; rfl)) fun _ => ?_)
    refine .bind (traces.acts .enter) fun _ => Ranked.here (.bind (.skip Bool.false_ne_true) fun _ => ?_)
    refine Ranked.here (.bind (traces.first there) fun found s hs => ?_)
    obtain ⟨listing,hs⟩ := hs
    have walked := @entriesWalk _ api action base t inv (done ++ [(.enter,base ++ joinDirs backslash dirs)])
      (base ++ joinDirs backslash dirs) false (api.enumRec action fuel false) traces sub sub proper
      (fun ends => by
        obtain ⟨there',proper',lower⟩ := below there proper ends
        refine ih there' proper' (by omega) ?_
        rw [joinDirsSnoc,List.append_assoc,List.append_assoc,List.append_assoc]) found listing .refl s hs
    have order : done ++ surrounded (base ++ joinDirs backslash dirs) (sub.calls (base ++ joinDirs backslash dirs)) =
        done ++ [(.enter,base ++ joinDirs backslash dirs)] ++
          (shown false sub).calls (base ++ joinDirs backslash dirs) ++
            [(.exit,base ++ joinDirs backslash dirs)] := by
      simp [surrounded,shown]
    rw [order]
    exact walked

theorem rootfsWalk (traces : api.Traces action base t inv) {fuel : Nat} {found : NodeInfo × Tree}
    (root : t.findDir rootfsName = some found) (proper : t.Proper) (deep : t.depth < fuel+1) :
    Triple (api.At (inv done) base) (do
        api.extend (wstr "rootfs\\")
        api.enumRec action fuel false
        api.resize base.length)
      (fun _ => api.At (inv (done ++ surrounded (base ++ rootfsName ++ [backslash])
        (found.2.calls (base ++ rootfsName ++ [backslash])))) base) Never := by
  obtain ⟨proper',lower⟩ := Tree.findDirProper proper root
  have text : base ++ wstr "rootfs\\" = base ++ rootfsName ++ [backslash] := by
    rw [List.append_assoc]
    rfl
  have there : t.descend [rootfsName] = some found.2 := by
    rw [Tree.descend,root]
    rfl
  have back := @resizing _ api action base t inv (done ++ surrounded (base ++ rootfsName ++ [backslash])
    (found.2.calls (base ++ rootfsName ++ [backslash]))) base traces (wstr "rootfs\\")
  refine .bind (traces.extending _) fun _ => .bind ?_ fun _ => back
  rw [text]
  exact traces.dirWalk there proper' (by omega) (by simp)

theorem rootWalk (traces : api.Traces action base t inv) (proper : t.Proper) {fuel : Nat}
    (deep : t.depth < fuel) {first : Bool} (rooted : first = true → (t.findDir rootfsName).isSome) :
    Triple (api.At (inv []) base) (api.enumDirectory action fuel first)
      (fun _ => api.At (inv (surrounded base ((t.inFront first).calls base))) base) Never := by
  have start : base = base ++ joinDirs backslash [] := by simp
  rw [enumDirectory]
  cases first with
  | false => exact traces.dirWalk rfl proper deep start
  | true =>
    obtain ⟨found,root⟩ := Option.isSome_iff_exists.mp (rooted rfl)
    have front : t.inFront true = .dir rootfsName found.1 found.2 t.apart := by simp [Tree.inFront,root]
    cases fuel with
    | zero => exact absurd deep (Nat.not_lt_zero _)
    | succ fuel =>
      have opened {done : List Call} := @Traces.opened _ _ _ _ _ _ traces [] done rfl
      have listed {done : List Call} := @Traces.first _ _ _ _ _ _ traces [] t done rfl
      rw [← start] at opened listed
      rw [enumRec,front]
      refine Ranked.here (.bind opened fun _ => .bind (traces.acts .enter) fun _ => Ranked.here ?_)
      rw [Program.when,if_pos rfl]
      refine .bind (traces.rootfsWalk root proper deep) fun _ => Ranked.here (.bind listed fun names s hs => ?_)
      obtain ⟨listing,hs⟩ := hs
      have walked := @entriesWalk _ api action base t inv _ base true (api.enumRec action fuel false) traces
        t t proper (fun ends => by
          obtain ⟨there',proper',lower⟩ := @below t [] t rfl _ _ _ _ proper ends
          exact traces.dirWalk there' proper' (by omega) (by simp)) names listing .refl s hs
      have order : surrounded base ((Tree.dir rootfsName found.1 found.2 t.apart).calls base) =
          [] ++ [(.enter,base)] ++ surrounded (base ++ rootfsName ++ [backslash])
            (found.2.calls (base ++ rootfsName ++ [backslash])) ++ (shown true t).calls base ++
              [(.exit,base)] := by
        simp [surrounded,shown,Tree.calls]
      rw [order]
      exact walked

end Traces

structure Serves (api : DirApi σ) (inv : σ → Prop) (base : Wstr) (t : Tree) : Prop where
  set : ∀ d s, inv s → inv (api.setData d s)
  opened : ∀ dirs, (t.descend dirs).isSome → Triple (api.At inv (base ++ joinDirs backslash dirs))
    (api.openListed (base ++ joinDirs backslash dirs))
    (fun _ => api.At inv (base ++ joinDirs backslash dirs)) Never
  first : ∀ dirs sub, t.descend dirs = some sub → Triple (api.At inv (base ++ joinDirs backslash dirs))
    (api.findFirst (base ++ joinDirs backslash dirs)) (fun found s =>
      Listing sub found ∧ api.At inv (base ++ joinDirs backslash dirs) s) Never
  next : ∀ path, Triple (api.At inv path) (api.findNext path)
    (fun more s => more = true ∧ api.At inv path s) Never

section Recording
variable {α β : Type}

def beside (x : Program Stop σ α) : Program Stop (σ × List Call) α :=
  Program.zoom Prod.fst (fun p s => (s,p.2)) x

def recording (api : DirApi σ) : DirApi (σ × List Call) where
  data p := api.data p.1
  setData d p := (api.setData d p.1,p.2)
  dataSet d p := api.dataSet d p.1
  setSet d d' p := Prod.ext (api.setSet d d' p.1) rfl
  setSame p := Prod.ext (api.setSame p.1) rfl
  openListed path := beside (api.openListed path)
  findFirst path := beside (api.findFirst path)
  findNext path := beside (api.findNext path)

def recorded (api : DirApi σ) (action : EnumDirType → Program Stop σ Unit) (kind : EnumDirType) :
    Program Stop (σ × List Call) Unit := do
  Program.modify fun p => (p.1,p.2 ++ [(kind,api.data p.1)])
  beside (action kind)

variable {api : DirApi σ} {action : EnumDirType → Program Stop σ Unit}

def Shadows (x' : Program Stop (σ × List Call) α) (x : Program Stop σ α) : Prop :=
  ∀ p, (x' p).1 = (x p.1).1 ∧ (x' p).2.1 = (x p.1).2

theorem Shadows.beside (x : Program Stop σ α) : Shadows (beside x) x := fun _ => ⟨rfl,rfl⟩

theorem Shadows.bind {x' : Program Stop (σ × List Call) β} {x : Program Stop σ β}
    {f' : β → Program Stop (σ × List Call) α} {f : β → Program Stop σ α} (h : Shadows x' x)
    (hf : ∀ b, Shadows (f' b) (f b)) : Shadows (x' >>= f') (x >>= f) := by
  intro p
  obtain ⟨outcome,state⟩ := h p
  rw [Program.bindRun,Program.bindRun]
  cases run' : x' p with
  | mk o' q =>
    cases run : x p.1 with
    | mk o u =>
      rw [run',run] at outcome state
      cases outcome
      cases state
      cases o' with
      | ok b => exact hf b q
      | error e => exact ⟨rfl,rfl⟩

theorem Shadows.ite {c : Prop} [Decidable c] {x' y' : Program Stop (σ × List Call) α}
    {x y : Program Stop σ α} (hx : Shadows x' x) (hy : Shadows y' y) :
    Shadows (if c then x' else y') (if c then x else y) := by
  split
  · exact hx
  · exact hy

theorem shadowsEntries {descend' : Program Stop (σ × List Call) Unit} {descend : Program Stop σ Unit}
    (h : Shadows descend' descend) (isRoot : Bool) (os : Nat) (found : List FindData) :
    Shadows (api.recording.enumEntries (api.recorded action) descend' isRoot os found)
      (api.enumEntries action descend isRoot os found) := by
  have acted (kind : EnumDirType) : Shadows (api.recorded action kind) (action kind) :=
    fun p => ⟨rfl,rfl⟩
  have moved (f : Wstr → Wstr) : Shadows
      (Program.modify fun p => api.recording.setData (f (api.recording.data p)) p)
      (Program.modify fun s => api.setData (f (api.data s)) s) := fun _ => ⟨rfl,rfl⟩
  induction found with
  | nil => exact acted .exit
  | cons entry rest ih =>
    have named : Shadows (api.recording.enumNamed (api.recorded action) descend' entry)
        (api.enumNamed action descend entry) :=
      .ite (.bind (moved (· ++ [backslash])) fun _ => h) (acted .file)
    refine .bind (.ite (.bind (moved (· ++ entry.name)) fun _ => .bind named fun _ =>
      moved (·.take os)) fun _ => ⟨rfl,rfl⟩) fun _ => .bind (fun _ => ⟨rfl,rfl⟩) fun path => ?_
    exact .bind (.beside _) fun more => .ite ih (acted .exit)

theorem shadowsWalk (fuel : Nat) (isRoot : Bool) :
    Shadows (api.recording.enumRec (api.recorded action) fuel isRoot) (api.enumRec action fuel isRoot) := by
  induction fuel generalizing isRoot with
  | zero => exact fun _ => ⟨rfl,rfl⟩
  | succ fuel ih =>
    refine .bind (fun _ => ⟨rfl,rfl⟩) fun path => .bind (.beside _) fun _ =>
      .bind (fun _ => ⟨rfl,rfl⟩) fun _ => .bind (fun _ => ⟨rfl,rfl⟩) fun entered => ?_
    refine .bind (.ite (.bind (fun _ => ⟨rfl,rfl⟩) fun _ => .bind (ih false) fun _ _ => ⟨rfl,rfl⟩)
      fun _ => ⟨rfl,rfl⟩) fun _ => .bind (fun _ => ⟨rfl,rfl⟩) fun listed => ?_
    exact .bind (.beside _) fun found => shadowsEntries (ih false) isRoot entered.length found

theorem besideAt {inv : σ → Prop} {path : Wstr} {x : Program Stop σ α} {good : α → σ → Prop}
    (done : List Call) (h : Triple (api.At inv path) x good Never) :
    Triple (api.recording.At (fun p => inv p.1 ∧ p.2 = done) path) (beside x)
      (fun a p => good a p.1 ∧ p.2 = done) Never := by
  rintro ⟨s,log⟩ ⟨⟨hs,rfl⟩,here⟩
  have after := h s ⟨hs,here⟩
  rw [beside,Program.zoom]
  cases run : x s with
  | mk outcome t =>
    rw [run] at after
    cases outcome with
    | ok a => exact ⟨after,rfl⟩
    | error e => exact after

theorem Serves.traces {inv : σ → Prop} {base : Wstr} {t : Tree} (serves : api.Serves inv base t)
    (returns : ∀ kind path, Triple (api.At inv path) (action kind) (fun _ => api.At inv path) Never) :
    api.recording.Traces (api.recorded action) base t fun done p => inv p.1 ∧ p.2 = done where
  set d h := ⟨serves.set d _ h.1,h.2⟩
  opened {dirs done} there := (besideAt done (serves.opened dirs there)).weaken (fun _ h => h)
    (fun _ _ h => ⟨⟨h.1.1,h.2⟩,h.1.2⟩) fun _ _ h => h
  first {dirs sub done} there := (besideAt done (serves.first dirs sub there)).weaken (fun _ h => h)
    (fun _ _ h => ⟨h.1.1,⟨h.1.2.1,h.2⟩,h.1.2.2⟩) fun _ _ h => h
  next {done path} := (besideAt done (serves.next path)).weaken (fun _ h => h)
    (fun _ _ h => ⟨h.1.1,⟨h.1.2.1,h.2⟩,h.1.2.2⟩) fun _ _ h => h
  acts {done path} kind := by
    have logged : Triple (api.recording.At (fun p => inv p.1 ∧ p.2 = done) path)
        (Program.modify fun p => (p.1,p.2 ++ [(kind,api.data p.1)]))
        (fun _ => api.recording.At (fun p => inv p.1 ∧ p.2 = done ++ [(kind,path)]) path) Never := by
      rintro ⟨s,log⟩ ⟨⟨hs,rfl⟩,rfl⟩
      exact ⟨⟨hs,rfl⟩,rfl⟩
    exact .bind logged fun _ => (besideAt _ (returns kind path)).weaken (fun _ h => h)
      (fun _ _ h => ⟨⟨h.1.1,h.2⟩,h.1.2⟩) fun _ _ h => h

end Recording
end DirApi

/- The callback is called for the entries of the tree and for nothing else, and the path is in the
end what it was. The log of the calls is that of the real run. -/
theorem exactTraversal {σ : Type} {api : DirApi σ} {inv : σ → Prop} {base : Wstr} {t : Tree}
    (serves : api.Serves inv base t) (proper : t.Proper)
    {action : EnumDirType → Program Stop σ Unit} (returns : ∀ kind path,
      Program.Triple (api.At inv path) (action kind) (fun _ => api.At inv path) DirApi.Never)
    {rootfsFirst : Bool} (rooted : rootfsFirst = true → (t.findDir rootfsName).isSome) {fuel : Nat}
    (deep : t.depth < fuel) {s : σ} (begins : inv s) (here : api.data s = base) :
    ∃ calls u, api.recording.enumDirectory (api.recorded action) fuel rootfsFirst (s,[]) =
        (.ok (),(u,calls)) ∧
      api.enumDirectory action fuel rootfsFirst s = (.ok (),u) ∧ api.data u = base ∧
      Exact base t rootfsFirst calls := by
  have walked := (serves.traces returns).rootWalk proper deep rooted (s,[]) ⟨⟨begins,rfl⟩,here⟩
  obtain ⟨outcome,state⟩ := @DirApi.shadowsWalk σ api action fuel rootfsFirst (s,[])
  rw [DirApi.enumDirectory] at walked ⊢
  cases run : api.recording.enumRec (api.recorded action) fuel rootfsFirst (s,[]) with
  | mk o p =>
    rw [run] at walked outcome state
    cases o with
    | error e => exact absurd walked id
    | ok done =>
      obtain ⟨⟨-,log⟩,back⟩ := walked
      refine ⟨p.2,p.1,rfl,Prod.ext outcome.symm state.symm,back,?_⟩
      rw [log]
      exact Tree.exactCalls proper base rooted

namespace Tree

theorem descendProper {t : Tree} (proper : t.Proper) {dirs : List Wstr} {sub : Tree}
    (there : t.descend dirs = some sub) : sub.Proper ∧ ∀ name ∈ dirs, backslash ∉ name := by
  induction dirs generalizing t with
  | nil =>
    cases there
    exact ⟨proper,by simp⟩
  | cons n dirs ih =>
    have clear := properClear proper (descendListed (t := t) (by rw [there]; rfl))
    rw [descend] at there
    obtain ⟨found,is,later⟩ := Option.bind_eq_some_iff.mp there
    obtain ⟨proper',names⟩ := ih (findDirProper proper is).1 later
    exact ⟨proper',List.forall_mem_cons.mpr ⟨clear,names⟩⟩

theorem properVisited {t : Tree} (proper : t.Proper) :
    (t.entries.filter fun e => DirApi.Visited false e) = t.entries := by
  rw [List.filter_eq_self]
  induction t with
  | nil => simp [entries]
  | file name info rest ih =>
    refine List.forall_mem_cons.mpr ⟨?_,ih proper.2.2⟩
    exact decide_eq_true ⟨proper.1.notDot,proper.1.notDotDot,.inl rfl⟩
  | dir name info sub rest _ ih =>
    refine List.forall_mem_cons.mpr ⟨?_,ih proper.2.2.2⟩
    exact decide_eq_true ⟨proper.1.notDot,proper.1.notDotDot,.inl rfl⟩

end Tree
namespace WslReader
variable {r : WslReader} {env : FsEnv}

theorem serves (works : env.Works) (proper : r.tree.Proper) :
    (r.api env).Serves (fun _ => True) r.base r.tree where
  set _ _ _ := trivial
  opened dirs there := by
    obtain ⟨sub,is⟩ := Option.isSome_iff_exists.mp there
    have found := (r.dirAtDirs (Tree.descendProper proper is).2).trans is
    refine (((r.openListedTicks env _).keeps ((r.api env).At (fun _ => True) _)
      fun s h => h).succeeds fun s _ => ?_)
    exact ⟨(),openedRun works (by rw [found]; rfl) s⟩
  first dirs sub there := by
    obtain ⟨proper',clear⟩ := Tree.descendProper proper there
    rintro s ⟨-,here⟩
    have run := @findFirstRun r env works _ _ ((r.dirAtDirs clear).trans there) s
    change Program.Ends _ _ (r.findFirst env _ s)
    rw [run]
    refine ⟨?_,trivial,here⟩
    rw [DirApi.Listing,List.filter_cons_of_neg (by decide),List.filter_cons_of_neg (by decide),
      Tree.properVisited proper']
  next path := by
    rintro s ⟨-,here⟩
    change Program.Ends _ _ (Fs.findNext env path s)
    rw [Fs.findNext,Program.bindOk (callWorks works _ s)]
    exact ⟨rfl,trivial,here⟩

end WslReader

def rootfsInside : WslReader := ⟨.legacy,wstr "\\\\?\\C:\\l\\",.file (wstr "state") bareNode
  (.dir rootfsName bareNode (.dir rootfsName bareNode .nil (.file (wstr "init") bareNode .nil)) .nil)⟩

theorem rootfsInsideProper : rootfsInside.tree.Proper := by
  have listable {name : Wstr} (clear : backslash ∉ name) (one : name ≠ dotName)
      (two : name ≠ dotDotName) : Listable name := ⟨clear,one,two⟩
  exact ⟨listable (by decide) (by decide) (by decide),by decide,
    listable (by decide) (by decide) (by decide),by decide,
    ⟨listable (by decide) (by decide) (by decide),by decide,trivial,
      listable (by decide) (by decide) (by decide),by decide,trivial⟩,trivial⟩

theorem exactTraversalRootfs : ∃ calls u,
    (rootfsInside.api plainFs).recording.enumDirectory
        ((rootfsInside.api plainFs).recorded fun _ => pure ()) 3 true
        (.new .v2 [] rootfsInside.base,[]) = (.ok (),(u,calls)) ∧
      (rootfsInside.api plainFs).enumDirectory (fun _ => pure ()) 3 true
        (.new .v2 [] rootfsInside.base) = (.ok (),u) ∧
      u.data = rootfsInside.base ∧ Exact rootfsInside.base rootfsInside.tree true calls :=
  @exactTraversal _ _ _ _ _ (WslReader.serves plainWorks rootfsInsideProper) rootfsInsideProper
    (fun _ => pure ()) (fun _ _ _ h => h) true (fun _ => rfl) 3 (by decide) _ trivial rfl

end LxRunOffline
