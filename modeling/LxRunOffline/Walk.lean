import LxRunOffline.MoveSafety

/-! A walk of a reader through its tree, entry by entry. Where it stands is told by the
directories above, each with the entries behind it, and by the entries still to come. -/
namespace LxRunOffline

structure Listable (name : Wstr) : Prop where
  clear : backslash ∉ name
  notDot : name ≠ dotName
  notDotDot : name ≠ dotDotName

namespace Tree

def names : Tree → List Wstr
  | nil => []
  | file name _ rest => name :: rest.names
  | dir name _ _ rest => name :: rest.names

def Proper : Tree → Prop
  | nil => True
  | file name _ rest => Listable name ∧ name ∉ rest.names ∧ rest.Proper
  | dir name _ sub rest => Listable name ∧ name ∉ rest.names ∧ sub.Proper ∧ rest.Proper

def depth : Tree → Nat
  | nil => 0
  | file _ _ rest => rest.depth
  | dir _ _ sub rest => max (sub.depth+1) rest.depth

def apart : Tree → Tree
  | nil => nil
  | file name info rest => if name = rootfsName then rest.apart else file name info rest.apart
  | dir name info sub rest =>
    if name = rootfsName then rest.apart else dir name info sub rest.apart

inductive Ends (t : Tree) : Tree → Prop
  | refl : Ends t t
  | file {name : Wstr} {info : NodeInfo} {rest : Tree} (h : Ends t (file name info rest)) :
      Ends t rest
  | dir {name : Wstr} {info : NodeInfo} {sub rest : Tree} (h : Ends t (dir name info sub rest)) :
      Ends t rest

theorem descendAppend (t : Tree) (names more : List Wstr) :
    t.descend (names ++ more) = (t.descend names).bind fun u => u.descend more := by
  induction names generalizing t with
  | nil => rfl
  | cons name names ih =>
    simp only [List.cons_append,descend]
    cases t.findDir name with
    | none => rfl
    | some found => exact ih found.2

theorem findDirProper {t : Tree} (proper : t.Proper) {name : Wstr} {info : NodeInfo} {sub : Tree}
    (h : t.findDir name = some (info,sub)) : sub.Proper ∧ sub.depth+1 ≤ t.depth := by
  induction t with
  | nil => cases h
  | file own info' rest ih => exact ih proper.2.2 h
  | dir own info' other rest _ ih =>
    rw [findDir] at h
    rw [depth]
    split at h
    · cases h
      exact ⟨proper.2.2.1,Nat.le_max_left ..⟩
    · obtain ⟨below,lower⟩ := ih proper.2.2.2 h
      exact ⟨below,Nat.le_trans lower (Nat.le_max_right ..)⟩

namespace Ends
variable {t u : Tree}

theorem proper (h : Ends t u) (proper : t.Proper) : u.Proper := by
  induction h with
  | refl => exact proper
  | file _ ih => exact ih.2.2
  | dir _ ih => exact ih.2.2.2

theorem depth (h : Ends t u) : u.depth ≤ t.depth := by
  induction h with
  | refl => exact Nat.le_refl _
  | file _ ih => exact ih
  | dir _ ih => exact Nat.le_trans (Nat.le_max_right ..) ih

theorem finds (h : Ends t u) (proper : t.Proper) {name : Wstr} (mem : name ∈ u.names) :
    t.findDir name = u.findDir name ∧ t.findFile name = u.findFile name := by
  induction h with
  | refl => exact ⟨rfl,rfl⟩
  | file h ih =>
    have own := (h.proper proper).2.1
    have other := ne_of_mem_of_not_mem mem own
    obtain ⟨dirs,files⟩ := ih (List.mem_cons_of_mem _ mem)
    exact ⟨dirs,by rw [files,findFile,if_neg other.symm]⟩
  | dir h ih =>
    have own := (h.proper proper).2.1
    have other := ne_of_mem_of_not_mem mem own
    obtain ⟨dirs,files⟩ := ih (List.mem_cons_of_mem _ mem)
    exact ⟨by rw [dirs,findDir,if_neg other.symm],files⟩

theorem findsDir {name : Wstr} {info : NodeInfo} {sub rest : Tree} (h : Ends t (.dir name info sub rest))
    (proper : t.Proper) : t.findDir name = some (info,sub) := by
  rw [(h.finds proper List.mem_cons_self).1,findDir,if_pos rfl]

theorem findsFile {name : Wstr} {info : NodeInfo} {rest : Tree} (h : Ends t (.file name info rest))
    (proper : t.Proper) : t.findFile name = some info := by
  rw [(h.finds proper List.mem_cons_self).2,findFile,if_pos rfl]

end Ends
end Tree

abbrev Frame := Wstr × Tree

def dirNames (stack : List Frame) : List Wstr := (stack.map Prod.fst).reverse

theorem dirNamesCons (name : Wstr) (rest : Tree) (stack : List Frame) :
    dirNames ((name,rest) :: stack) = dirNames stack ++ [name] := by simp [dirNames]

def FsEnv.Lists (env : FsEnv) : Prop := ∀ time path, env.status time (.findNext path) ≠ errorNoMoreFiles

theorem FsEnv.Works.lists {env : FsEnv} (works : env.Works) : env.Lists := by
  intro time path
  rw [works.status]
  decide

namespace WslReader
variable (r : WslReader) (env : FsEnv) (w : Format)

/- The order of a walk: that of the listings, but the legacy reader begins with `rootfs` and comes
to nothing else without it. -/
def walked : Tree :=
  if r.format = .legacy then
    match r.tree.findDir rootfsName with
    | some (info,sub) => .dir rootfsName info sub r.tree.apart
    | none => .nil
  else r.tree

def dirPath (stack : List Frame) : Wstr := r.base ++ joinDirs backslash (dirNames stack)

/- The walk is in a directory of the source, whose entries are those of the tree. -/
structure Reached (stack : List Frame) (t : Tree) : Prop where
  listed : r.tree.descend (dirNames stack) = some t
  clear : ∀ name ∈ dirNames stack, backslash ∉ name
  proper : t.Proper

namespace Reached
variable {r} {stack : List Frame} {t : Tree} {name : Wstr} {info : NodeInfo} {sub rest : Tree}

theorem root (proper : r.tree.Proper) : r.Reached [] r.tree := ⟨rfl,by simp [dirNames],proper⟩

theorem dirAt (h : r.Reached stack t) : r.dirAt (r.dirPath stack) = some t :=
  (r.dirAtDirs h.clear).trans h.listed

theorem found (h : r.Reached stack t) (clear : backslash ∉ name) (there : t.findDir name = some (info,sub)) :
    r.infoAt (r.dirPath stack ++ name ++ [backslash]) true = some info ∧
      (sub.Proper → r.Reached ((name,rest) :: stack) sub) := by
  have longer : ∀ other ∈ dirNames stack ++ [name], backslash ∉ other := by
    intro other mem
    rcases List.mem_append.mp mem with above | own
    · exact h.clear other above
    · exact List.mem_singleton.mp own ▸ clear
  refine ⟨?_,fun proper => ⟨?_,dirNamesCons name rest stack ▸ longer,proper⟩⟩
  · have same : r.dirPath stack ++ name ++ [backslash] =
        r.base ++ joinDirs backslash (dirNames stack ++ [name]) := by
      rw [joinDirsSnoc,dirPath]
      simp only [List.append_assoc]
    rw [same,r.infoAtDir longer,h.listed,Option.bind_some,there]
    rfl
  · rw [dirNamesCons,Tree.descendAppend,h.listed,Option.bind_some,Tree.descend,there]
    rfl

theorem dir (h : r.Reached stack t) (ends : t.Ends (.dir name info sub rest)) :
    r.infoAt (r.dirPath stack ++ name ++ [backslash]) true = some info ∧
      ∀ rest, r.Reached ((name,rest) :: stack) sub := by
  obtain ⟨listable,-,proper,-⟩ := ends.proper h.proper
  have leads (rest : Tree) := @found r stack t name info sub rest h listable.clear (ends.findsDir h.proper)
  exact ⟨(leads rest).1,fun rest => (leads rest).2 proper⟩

theorem file (h : r.Reached stack t) (ends : t.Ends (.file name info rest)) :
    r.infoAt (r.dirPath stack ++ name) false = some info := by
  have listable := (ends.proper h.proper).1
  rw [dirPath,List.append_assoc,r.infoAtFile h.clear listable.clear,h.listed,Option.bind_some,
    ends.findsFile h.proper]

end Reached

def Fails (inv : List Frame → Tree → CopyState → Prop) (bad : Stop → CopyState → Prop) : Prop :=
  ∀ stack t s e, inv stack t s → bad e s

structure Traversal (inv : List Frame → Tree → CopyState → Prop) (bad : Stop → CopyState → Prop) :
    Prop where
  moved : ∀ {stack t s} clock data root, inv stack t s →
    inv stack t {s with clock := clock, data := data, isRoot := root}
  leave : ∀ {name rest stack s}, inv ((name,rest) :: stack) .nil s → inv stack rest s
  calls : env.Works ∨ Fails inv bad
  whole : env.Lists ∨ ∀ {stack t s}, inv stack t s → inv stack .nil s
  file : ∀ {stack name info rest}, r.infoAt (r.dirPath stack ++ name) false = some info →
    Program.Triple (inv stack (.file name info rest))
      (r.visitNode env w (r.dirPath stack ++ name) false) (fun _ => inv stack rest) bad
  dir : ∀ {stack name info sub rest}, r.infoAt (r.dirPath stack ++ name ++ [backslash]) true = some info →
    Program.Triple (inv stack (.dir name info sub rest))
      (r.visitNode env w (r.dirPath stack ++ name ++ [backslash]) true)
      (fun _ => inv ((name,rest) :: stack) sub) bad

def place (s : CopyState) : Wstr × Bool := (s.data,s.isRoot)

section
open Program (Leaves)
variable {α : Type} {kind : FsEvent → Prop} {x : Copy α}

theorem emitsPlace (h : Emits kind x) : Leaves place x :=
  fun s => Prod.ext (h.final s).data (h.final s).isRoot

theorem writeNewFilePlace (attr : Option FileAttr) : Leaves place (FsWriter.writeNewFile env w attr) := by
  intro s
  have stored := FsWriter.writeNewFileStored env w attr s
  cases run : FsWriter.writeNewFile env w attr s with
  | mk outcome t =>
    rw [run] at stored
    cases outcome with
    | ok done => exact Prod.ext (storedKeeps stored).1 (storedKeeps stored).2
    | error e => exact Prod.ext stored.data stored.isRoot

theorem writeHardLinkPlace : Leaves place (FsWriter.writeHardLink env w) := by
  intro s
  by_cases refused : s.targetPath.data ∈ s.ignored
  · rw [FsWriter.refusedLink env w refused]
    rfl
  · have linked := FsWriter.emittedLink env w refused
    exact Prod.ext linked.data linked.isRoot

theorem storeFilePlace (path : Wstr) (info : NodeInfo) (attr : Option FileAttr) :
    Leaves place (storeFile env w path info attr) :=
  .bind (writeNewFilePlace env w attr) fun _ =>
    .ite (.ite (emitsPlace (copyDataEmits ..)) (.pure ())) (.pure ())

theorem copyFilePlace (path : Wstr) (info : NodeInfo) : Leaves place (r.copyFile env w path info) := by
  have read : Emits (fun _ => False) (r.readAttr env path info) := r.readAttrEmits env path info
  have target : Emits (fun _ => False) (r.readSymlinkData env path info) :=
    r.readSymlinkDataEmits env path info
  refine .bind (emitsPlace read) fun attr => .ite ?_ (storeFilePlace env w path info attr)
  refine .bind (emitsPlace target) fun target => ?_
  cases attr with
  | none => exact .pure ()
  | some attr => cases target with
    | none => exact .pure ()
    | some target => exact storeFilePlace env w path info _

theorem visitFilePlace (path : Wstr) (info : NodeInfo) : Leaves place (r.visitFile env w path info) := by
  refine .bind (fun _ => rfl) fun _ => .ite (.raise _) (.ite (.bind (fun _ => rfl) fun s => ?_) ?_)
  · cases s.idMap.lookup info.index with
    | none => exact .bind (fun _ => rfl) fun _ => r.copyFilePlace env w path info
    | some first => exact .bind (fun _ => rfl) fun _ => .ite (writeHardLinkPlace env w) (.pure ())
  · exact r.copyFilePlace env w path info

theorem visitNodePlace (path : Wstr) (dir : Bool) : Leaves place (r.visitNode env w path dir) := by
  have opened : Emits (fun _ => False) (r.openNode env path dir) := r.openNodeEmits env path dir
  have read (info : NodeInfo) : Emits (fun _ => False) (r.readAttr env path info) :=
    r.readAttrEmits env path info
  refine .bind (fun _ => rfl) fun _ => .ite (.bind (emitsPlace opened) fun info => ?_) (.pure ())
  refine .ite (.bind (emitsPlace (read info)) fun attr => ?_) (r.visitFilePlace env w path info)
  exact .bind (writeNewFilePlace env w attr) fun _ => .pure ()

end

theorem openListedTicks (path : Wstr) : Fs.Ticks (r.openListed env path) := by
  unfold openListed
  split
  · exact .openListed env path
  · exact .raise _

theorem findFirstTicks (path : Wstr) : Fs.Ticks (r.findFirst env path) := by
  refine .status env fun _ => .ite (fun _ => .raise _) fun _ => ?_
  split
  · exact .raise _
  · exact .pure _

namespace Traversal
open Program (Triple)
variable {r} {env} {w} {inv : List Frame → Tree → CopyState → Prop} {bad : Stop → CopyState → Prop}
  {stack : List Frame} {t u : Tree} {path : Wstr} {inner : Bool} {α : Type}

def Stands (inv : List Frame → Tree → CopyState → Prop) (stack : List Frame) (t : Tree) (path : Wstr)
    (root : Bool) (s : CopyState) : Prop := inv stack t s ∧ place s = (path,root)

theorem calling (walks : r.Traversal env w inv bad) {x : Copy α} (ticks : Fs.Ticks x)
    (returns : env.Works → ∀ s, ∃ a u, x s = (.ok a,u)) :
    Triple (Stands inv stack t path inner) x (fun _ => Stands inv stack t path inner) bad := by
  have kept := ticks.keeps (Stands inv stack t path inner)
    fun s h => ⟨walks.moved (s.clock+1) s.data s.isRoot h.1,h.2⟩
  rcases walks.calls with works | fails
  · exact kept.succeeds fun s _ => returns works s
  · exact kept.weaken (fun _ h => h) (fun _ _ h => h) fun e _ h => fails _ _ _ e h.1.1

theorem asking (walks : r.Traversal env w inv bad) (listed : Wstr) :
    Triple (Stands inv stack t path inner) (Fs.findNext env listed)
      (fun more => Stands inv stack (if more then t else .nil) path inner) bad := by
  intro s h
  have ticked : Stands inv stack t path inner (Clocked.tick s) :=
    ⟨walks.moved (s.clock+1) s.data s.isRoot h.1,h.2⟩
  rw [Fs.findNext,Program.bindRun,Fs.call,Fs.ask]
  dsimp only
  split
  · exact ticked
  · rename_i failed
    split
    · rename_i ended
      exact ⟨walks.whole.elim (fun lists => absurd ended (lists _ _)) fun cut => cut ticked.1,h.2⟩
    · exact walks.calls.elim (fun works => absurd (works.status _ _) failed) fun fails => fails _ _ _ _ ticked.1

theorem reading {f : Wstr → Copy α} {good : α → CopyState → Prop}
    (h : Triple (Stands inv stack t path inner) (f path) good bad) :
    Triple (Stands inv stack t path inner) ((r.api env).current >>= f) good bad := by
  intro s hs
  have same : s.data = path := congrArg Prod.fst hs.2
  have run := h s hs
  rw [← same] at run
  exact run

theorem extending (walks : r.Traversal env w inv bad) (text : Wstr) :
    Triple (Stands inv stack t path inner) ((r.api env).extend text)
      (fun _ => Stands inv stack t (path ++ text) inner) bad := by
  rintro s ⟨h,here⟩
  obtain ⟨data,root⟩ := Prod.mk.inj here
  exact ⟨walks.moved s.clock (s.data ++ text) s.isRoot h,Prod.ext (congrArg (· ++ text) data) root⟩

theorem resizing (walks : r.Traversal env w inv bad) (text : Wstr) :
    Triple (Stands inv stack t (path ++ text) inner) ((r.api env).resize path.length)
      (fun _ => Stands inv stack t path inner) bad := by
  rintro s ⟨h,here⟩
  obtain ⟨data,root⟩ := Prod.mk.inj here
  refine ⟨walks.moved s.clock (s.data.take path.length) s.isRoot h,Prod.ext ?_ root⟩
  exact (congrArg (List.take path.length) data).trans List.take_left

theorem visiting {kind : EnumDirType} (stays : kind ≠ .exit) {after : CopyState → Prop}
    (node : Triple (inv stack t) (r.visitNode env w path (kind = .enter)) (fun _ => after) bad) :
    Triple (Stands inv stack t path false) (r.visit env w kind)
      (fun _ s => after s ∧ place s = (path,false)) bad := by
  intro s h
  obtain ⟨data,root⟩ := Prod.mk.inj h.2
  have run : r.visit env w kind s = r.visitNode env w path (kind = .enter) s := by
    rw [visit,if_neg stays,Program.bindRun,Program.getRun]
    dsimp only
    rw [if_neg (by simp [root]),data]
  rw [run]
  exact (r.visitNodePlace env w path (kind = .enter)).leaving node (path,false) s h

def shown (skips : Bool) (t : Tree) : Tree := if skips then t.apart else t

theorem dirPathCons (name : Wstr) (rest : Tree) (stack : List Frame) :
    r.dirPath ((name,rest) :: stack) = r.dirPath stack ++ name ++ [backslash] := by
  rw [dirPath,dirNamesCons,joinDirsSnoc,dirPath]
  simp only [List.append_assoc]

section Entries
variable {descend : Copy Unit} {skips : Bool} {name : Wstr}

theorem onward (walks : r.Traversal env w inv bad) {others : Copy Unit}
    (next : Triple (Stands inv stack t path false) others (fun _ => Stands inv stack .nil path false) bad) :
    Triple (Stands inv stack t path false) ((r.api env).current >>= fun listed =>
      (r.api env).findNext listed >>= fun more => if more = true then others else r.visit env w .exit)
      (fun _ => Stands inv stack .nil path false) bad := by
  refine reading (.bind (walks.asking path) fun more => ?_)
  cases more with
  | true => exact next
  | false => exact fun _ h => h

theorem passing (walks : r.Traversal env w inv bad) {entry : FindData} {found : List FindData}
    (hidden : ¬ DirApi.Visited skips entry)
    (next : Triple (Stands inv stack t path false)
      ((r.api env).enumEntries (r.visit env w) descend skips path.length found)
      (fun _ => Stands inv stack .nil path false) bad) :
    Triple (Stands inv stack t path false)
      ((r.api env).enumEntries (r.visit env w) descend skips path.length (entry :: found))
      (fun _ => Stands inv stack .nil path false) bad := by
  rw [DirApi.enumEntries]
  exact .bind (.skip hidden) fun _ => walks.onward next

theorem fileEntry (walks : r.Traversal env w inv bad) (visited : DirApi.Visited skips ⟨name,false⟩)
    (node : Triple (inv stack t) (r.visitNode env w (path ++ name) false) (fun _ => inv stack u) bad) :
    Triple (Stands inv stack t path false)
      ((r.api env).enumEntry (r.visit env w) descend skips path.length ⟨name,false⟩)
      (fun _ => Stands inv stack u path false) bad := by
  have run : Triple (Stands inv stack t (path ++ name) false)
      ((r.api env).enumNamed (r.visit env w) descend ⟨name,false⟩)
      (fun _ => Stands inv stack u (path ++ name) false) bad := by
    rw [DirApi.enumNamed,if_neg Bool.false_ne_true]
    exact visiting (by decide) node
  rw [DirApi.enumEntry,Program.when,if_pos visited]
  exact .bind (walks.extending name) fun _ => .bind run fun _ => walks.resizing name

theorem dirEntry (walks : r.Traversal env w inv bad) (visited : DirApi.Visited skips ⟨name,true⟩)
    (deeper : Triple (Stands inv stack t (path ++ name ++ [backslash]) false)
      descend (fun _ => Stands inv stack u (path ++ name ++ [backslash]) false) bad) :
    Triple (Stands inv stack t path false)
      ((r.api env).enumEntry (r.visit env w) descend skips path.length ⟨name,true⟩)
      (fun _ => Stands inv stack u path false) bad := by
  have run : Triple (Stands inv stack t (path ++ name) false)
      ((r.api env).enumNamed (r.visit env w) descend ⟨name,true⟩)
      (fun _ => Stands inv stack u (path ++ (name ++ [backslash])) false) bad := by
    rw [← List.append_assoc,DirApi.enumNamed,if_pos rfl]
    exact .bind (walks.extending [backslash]) fun _ => deeper
  rw [DirApi.enumEntry,Program.when,if_pos visited]
  exact .bind (walks.extending name) fun _ => .bind run fun _ => walks.resizing _

end Entries

section Shown
variable {skips : Bool} {name : Wstr} {info : NodeInfo} {sub rest : Tree}

theorem hiddenFile (hidden : skips = true ∧ name = rootfsName) :
    shown skips (.file name info rest) = shown skips rest := by simp [shown,Tree.apart,hidden]

theorem hiddenDir (hidden : skips = true ∧ name = rootfsName) :
    shown skips (.dir name info sub rest) = shown skips rest := by simp [shown,Tree.apart,hidden]

theorem shownFile (other : ¬ (skips = true ∧ name = rootfsName)) :
    shown skips (.file name info rest) = .file name info (shown skips rest) := by
  cases skips with
  | false => rfl
  | true =>
    have named : name ≠ rootfsName := fun same => other ⟨rfl,same⟩
    simp [shown,Tree.apart,named]

theorem shownDir (other : ¬ (skips = true ∧ name = rootfsName)) :
    shown skips (.dir name info sub rest) = .dir name info sub (shown skips rest) := by
  cases skips with
  | false => rfl
  | true =>
    have named : name ≠ rootfsName := fun same => other ⟨rfl,same⟩
    simp [shown,Tree.apart,named]

theorem hiddenPassed (hidden : skips = true ∧ name = rootfsName) (directory : Bool) :
    ¬ DirApi.Visited skips ⟨name,directory⟩ := fun visited =>
  visited.2.2.elim (fun no => by simp [hidden.1] at no) fun other => other hidden.2

theorem shownVisited (listable : Listable name) (other : ¬ (skips = true ∧ name = rootfsName))
    (directory : Bool) : DirApi.Visited skips ⟨name,directory⟩ := by
  refine ⟨listable.notDot,listable.notDotDot,?_⟩
  cases skips with
  | false => exact .inl rfl
  | true => exact .inr fun same => other ⟨rfl,same⟩

end Shown

theorem entriesWalk (walks : r.Traversal env w inv bad) (reached : r.Reached stack t) (skips : Bool)
    {descend : Copy Unit} (deeper : ∀ name info sub rest rest', t.Ends (.dir name info sub rest) →
      Triple (Stands inv stack (.dir name info sub rest') (r.dirPath stack ++ name ++ [backslash]) false)
        descend (fun _ => Stands inv stack rest' (r.dirPath stack ++ name ++ [backslash]) false) bad)
    (ends : t.Ends u) : Triple (Stands inv stack (shown skips u) (r.dirPath stack) false)
      ((r.api env).enumEntries (r.visit env w) descend skips (r.dirPath stack).length u.entries)
      (fun _ => Stands inv stack .nil (r.dirPath stack) false) bad := by
  induction u with
  | nil =>
    have none' : shown skips .nil = .nil := by cases skips <;> rfl
    rw [none']
    exact fun _ h => h
  | file name info rest ih =>
    have next := ih ends.file
    by_cases hidden : skips = true ∧ name = rootfsName
    · rw [hiddenFile hidden]
      exact walks.passing (hiddenPassed hidden false) next
    · have visited := shownVisited (ends.proper reached.proper).1 hidden false
      rw [shownFile hidden,Tree.entries,DirApi.enumEntries]
      exact .bind (walks.fileEntry visited (walks.file (reached.file ends))) fun _ => walks.onward next
  | dir name info sub rest _ ih =>
    have next := ih ends.dir
    by_cases hidden : skips = true ∧ name = rootfsName
    · rw [hiddenDir hidden]
      exact walks.passing (hiddenPassed hidden true) next
    · have visited := shownVisited (ends.proper reached.proper).1 hidden true
      rw [shownDir hidden,Tree.entries,DirApi.enumEntries]
      exact .bind (walks.dirEntry visited (deeper name info sub rest _ ends)) fun _ => walks.onward next

theorem dotsPassed {skips : Bool} {name : Wstr} (dot : name = dotName ∨ name = dotDotName) :
    ¬ DirApi.Visited skips ⟨name,true⟩ := by
  rintro ⟨one,two,-⟩
  exact dot.elim one two

theorem listing (walks : r.Traversal env w inv bad) (reached : r.Reached stack t) (skips : Bool) :
    Triple (Stands inv stack (shown skips t) (r.dirPath stack) false)
      ((r.api env).findFirst (r.dirPath stack)) (fun found s =>
        found = ⟨dotName,true⟩ :: ⟨dotDotName,true⟩ :: t.entries ∧
          Stands inv stack (shown skips t) (r.dirPath stack) false s) bad := by
  have call := @calling _ _ _ _ _ stack (shown skips t) (r.dirPath stack) false _ walks
    (r.findFirst env (r.dirPath stack)) (r.findFirstTicks env _)
    fun works s => ⟨_,_,findFirstRun works reached.dirAt s⟩
  intro s h
  have after := call s h
  change Program.Ends _ _ (r.findFirst env (r.dirPath stack) s)
  cases run : r.findFirst env (r.dirPath stack) s with
  | mk outcome u =>
    rw [run] at after
    cases outcome with
    | error e => exact after
    | ok found =>
      refine ⟨?_,after⟩
      obtain ⟨code,v,-,run⟩ := Program.bindOkSource run
      split at run
      · cases run
      · rw [reached.dirAt] at run
        exact (Except.ok.inj (Prod.mk.inj run).1).symm

theorem listWalk (walks : r.Traversal env w inv bad) (reached : r.Reached stack t) (skips : Bool)
    {descend : Copy Unit} (deeper : ∀ name info sub rest rest', t.Ends (.dir name info sub rest) →
      Triple (Stands inv stack (.dir name info sub rest') (r.dirPath stack ++ name ++ [backslash]) false)
        descend (fun _ => Stands inv stack rest' (r.dirPath stack ++ name ++ [backslash]) false) bad) :
    Triple (Stands inv stack (shown skips t) (r.dirPath stack) false)
      ((r.api env).findFirst (r.dirPath stack) >>= fun found =>
        (r.api env).enumEntries (r.visit env w) descend skips (r.dirPath stack).length found)
      (fun _ => Stands inv stack .nil (r.dirPath stack) false) bad := by
  refine .bind (walks.listing reached skips) fun found s h => ?_
  obtain ⟨rfl,here⟩ := h
  refine walks.passing (dotsPassed (.inl rfl)) ?_ s here
  exact walks.passing (dotsPassed (.inr rfl)) (walks.entriesWalk reached skips deeper .refl)

def Enough (inv : List Frame → Tree → CopyState → Prop) (bad : Stop → CopyState → Prop)
    (depth fuel : Nat) : Prop := depth < fuel ∨ ∀ stack t s, inv stack t s → bad .outOfFuel s

theorem opening (walks : r.Traversal env w inv bad) {below : List Frame} (reached : r.Reached below u) :
    Triple (Stands inv stack t path inner) ((r.api env).openListed (r.dirPath below))
      (fun _ => Stands inv stack t path inner) bad := by
  refine walks.calling (r.openListedTicks env _) fun works s => ⟨(),?_⟩
  have there : (r.dirAt (r.dirPath below)).isSome := by
    rw [reached.dirAt]
    rfl
  exact openedRun works there s

theorem entering (walks : r.Traversal env w inv bad) {name : Wstr} {info : NodeInfo}
    (there : r.infoAt (r.dirPath stack ++ name ++ [backslash]) true = some info) (sub rest : Tree) :
    Triple (Stands inv stack (.dir name info sub rest) (r.dirPath stack ++ name ++ [backslash]) false)
      (r.visit env w .enter)
      (fun _ => Stands inv ((name,rest) :: stack) sub (r.dirPath stack ++ name ++ [backslash]) false)
      bad := visiting (by decide) (walks.dir there)

theorem dirWalk (walks : r.Traversal env w inv bad) {fuel : Nat} {name : Wstr} {info : NodeInfo}
    {sub rest : Tree} (there : r.infoAt (r.dirPath stack ++ name ++ [backslash]) true = some info)
    (reached : r.Reached ((name,rest) :: stack) sub) (enough : Enough inv bad sub.depth fuel) :
    Triple (Stands inv stack (.dir name info sub rest) (r.dirPath stack ++ name ++ [backslash]) false)
      ((r.api env).enumRec (r.visit env w) fuel false)
      (fun _ => Stands inv stack rest (r.dirPath stack ++ name ++ [backslash]) false) bad := by
  -- The induction is on the fuel, which bounds the depth below the directory.
  induction fuel generalizing stack name info sub rest with
  | zero =>
    refine fun s h => ?_
    exact enough.elim (fun deep => absurd deep (Nat.not_lt_zero _)) fun spent => spent _ _ _ h.1
  | succ fuel ih =>
    have node := walks.entering there sub rest
    rw [← dirPathCons] at node ⊢
    rw [DirApi.enumRec]
    refine reading (.bind (walks.opening reached) fun _ => .bind node fun _ => reading ?_)
    refine .bind (.skip Bool.false_ne_true) fun _ => reading ?_
    refine (walks.listWalk reached false fun name info sub' rest rest' ends => ?_).weaken
      (fun _ h => h) (fun _ s h => ⟨walks.leave h.1,h.2⟩) fun _ _ h => h
    obtain ⟨there',leads⟩ := reached.dir ends
    refine ih there' (leads rest') (enough.imp_left fun deep => ?_)
    have lower := ends.depth
    rw [Tree.depth] at lower
    omega

theorem beginning (walks : r.Traversal env w inv bad) :
    Triple (Stands inv stack t path true) (r.visit env w .enter)
      (fun _ => Stands inv stack t path false) bad := by
  rintro s ⟨h,here⟩
  obtain ⟨data,root⟩ := Prod.mk.inj here
  rw [visit,if_neg (by decide),Program.bindRun,Program.getRun]
  dsimp only
  rw [if_pos ⟨rfl,root⟩]
  exact ⟨walks.moved s.clock s.data false h,Prod.ext data rfl⟩

theorem rootPath : r.dirPath [] = r.base := List.append_nil _

theorem rootfsPath : r.dirPath [] ++ wstr "rootfs\\" = r.dirPath [] ++ rootfsName ++ [backslash] := by
  have text : wstr "rootfs\\" = rootfsName ++ [backslash] := by decide
  rw [text,List.append_assoc]

theorem rootfsClosed (none' : r.tree.findDir rootfsName = none) :
    (r.api env).openListed (r.dirPath [] ++ rootfsName ++ [backslash]) =
      Fs.throwWin32 .errOpenDir [r.dirPath [] ++ rootfsName ++ [backslash]] errorPathMissing := by
  have clear : ∀ name ∈ [rootfsName], backslash ∉ name := by decide
  have path' : r.dirPath [] ++ rootfsName ++ [backslash] =
      r.base ++ joinDirs backslash [rootfsName] := by simp [rootPath]
  have nowhere : r.dirAt (r.dirPath [] ++ rootfsName ++ [backslash]) = none := by
    rw [path',r.dirAtDirs clear,Tree.descend,none']
    rfl
  change r.openListed env _ = _
  rw [openListed,nowhere]
  rfl

theorem rootless (none' : r.tree.findDir rootfsName = none)
    (fails : Fails inv bad) (fuel : Nat) :
    Triple (Stands inv stack t (r.dirPath [] ++ rootfsName ++ [backslash]) false)
      ((r.api env).enumRec (r.visit env w) fuel false) (fun _ _ => False) bad := by
  cases fuel with
  | zero => exact fun s h => fails _ _ _ _ h.1
  | succ fuel =>
    rw [DirApi.enumRec]
    refine reading ?_
    rw [rootfsClosed none']
    exact fun s h => fails _ _ _ _ h.1

section Root
variable (walks : r.Traversal env w inv bad) (proper : r.tree.Proper) {fuel : Nat}
  (enough : Enough inv bad r.tree.depth (fuel+1))
include walks proper enough

theorem topWalk (rest : Tree) {name : Wstr} {info : NodeInfo} {sub : Tree}
    (clear : backslash ∉ name) (there : r.tree.findDir name = some (info,sub)) :
    Triple (Stands inv [] (.dir name info sub rest) (r.dirPath [] ++ name ++ [backslash]) false)
      ((r.api env).enumRec (r.visit env w) fuel false)
      (fun _ => Stands inv [] rest (r.dirPath [] ++ name ++ [backslash]) false) bad := by
  obtain ⟨below,lower⟩ := Tree.findDirProper proper there
  obtain ⟨info',leads⟩ := @Reached.found r [] r.tree name info sub rest (.root proper) clear there
  exact walks.dirWalk info' (leads below) (enough.imp_left fun deep => by omega)

theorem listedWalk {name : Wstr} {info : NodeInfo} {sub rest : Tree} (rest' : Tree)
    (ends : r.tree.Ends (.dir name info sub rest)) :
    Triple (Stands inv [] (.dir name info sub rest') (r.dirPath [] ++ name ++ [backslash]) false)
      ((r.api env).enumRec (r.visit env w) fuel false)
      (fun _ => Stands inv [] rest' (r.dirPath [] ++ name ++ [backslash]) false) bad := by
  refine walks.topWalk proper enough rest' (ends.proper proper).1.clear ?_
  exact ends.findsDir proper

theorem rootfsWalk (legacy : r.format = .legacy)
    (rooted : (r.tree.findDir rootfsName).isSome ∨ Fails inv bad) :
    Triple (Stands inv [] r.walked (r.dirPath []) false)
      (do
        (r.api env).extend (wstr "rootfs\\")
        (r.api env).enumRec (r.visit env w) fuel false
        (r.api env).resize (r.dirPath []).length)
      (fun _ => Stands inv [] (shown true r.tree) (r.dirPath []) false) bad := by
  refine .bind (walks.extending _) fun _ => ?_
  rw [rootfsPath]
  cases there : r.tree.findDir rootfsName with
  | none =>
    have fails := rooted.resolve_left (by simp [there])
    exact .bind (rootless there fails fuel) fun _ => fun _ => False.elim
  | some found =>
    have same : r.walked = .dir rootfsName found.1 found.2 r.tree.apart := by
      rw [walked,if_pos legacy,there]
    rw [same]
    refine .bind (walks.topWalk proper enough _ (by decide) there) fun _ => ?_
    rw [List.append_assoc]
    exact walks.resizing _

end Root

theorem rootWalk (walks : r.Traversal env w inv bad) (proper : r.tree.Proper) {fuel : Nat}
    (enough : Enough inv bad r.tree.depth fuel) (rooted : r.format = .legacy →
      (r.tree.findDir rootfsName).isSome ∨ Fails inv bad) :
    Triple (Stands inv [] r.walked r.base true)
      ((r.api env).enumRec (r.visit env w) fuel (r.format = .legacy))
      (fun _ => Stands inv [] .nil r.base false) bad := by
  cases fuel with
  | zero => exact fun s h => enough.elim (fun deep => absurd deep (Nat.not_lt_zero _)) fun spent => spent _ _ _ h.1
  | succ fuel =>
    have reached := Reached.root proper
    have listed (skips : Bool) := walks.listWalk reached skips fun name info sub rest rest' ends =>
      walks.listedWalk proper enough rest' ends
    rw [DirApi.enumRec,← rootPath (r := r)]
    refine reading (.bind (walks.opening reached) fun _ => .bind walks.beginning fun _ => reading ?_)
    by_cases legacy : r.format = .legacy
    · rw [decide_eq_true legacy]
      exact .bind (walks.rootfsWalk proper enough legacy (rooted legacy)) fun _ => reading (listed true)
    · have same : r.walked = shown false r.tree := if_neg legacy
      rw [same,decide_eq_false legacy]
      exact .bind (.skip Bool.false_ne_true) fun _ => reading (listed false)

theorem runWalk (walks : r.Traversal env w inv bad) (proper : r.tree.Proper) {fuel : Nat}
    (enough : Enough inv bad r.tree.depth fuel) (rooted : r.format = .legacy →
      (r.tree.findDir rootfsName).isSome ∨ Fails inv bad) :
    Triple (fun s => s.data = r.base ∧ inv [] r.walked {s with idMap := []}) (r.run env w fuel)
      (fun _ => inv [] .nil) bad := by
  have begun : Triple (fun s => s.data = r.base ∧ inv [] r.walked {s with idMap := []})
      (Program.modify fun s => {s with isRoot := true, idMap := []})
      (fun _ => Stands inv [] r.walked r.base true) bad := by
    rintro s ⟨data,h⟩
    exact ⟨walks.moved s.clock s.data true h,Prod.ext data rfl⟩
  refine .bind begun fun _ => (walks.rootWalk proper enough rooted).weaken (fun _ h => h)
    (fun _ _ h => h.1) fun _ _ h => h

end Traversal
end WslReader

structure Visit where
  dirs : List Wstr
  name : Wstr
  dir : Bool
  info : NodeInfo

namespace Visit

def path (v : Visit) : Wstr :=
  joinDirs backslash v.dirs ++ v.name ++ if v.dir then [backslash] else []

end Visit

def Tree.visits (dirs : List Wstr) : Tree → List Visit
  | nil => []
  | file name info rest => ⟨dirs,name,false,info⟩ :: rest.visits dirs
  | dir name info sub rest =>
    ⟨dirs,name,true,info⟩ :: (sub.visits (dirs ++ [name]) ++ rest.visits dirs)

def ahead : List Frame → Tree → List Visit
  | [],t => t.visits []
  | (name,rest) :: stack,t => t.visits (dirNames ((name,rest) :: stack)) ++ ahead stack rest

theorem aheadFile (stack : List Frame) (name : Wstr) (info : NodeInfo) (rest : Tree) :
    ahead stack (.file name info rest) = ⟨dirNames stack,name,false,info⟩ :: ahead stack rest := by
  cases stack <;> rfl

theorem aheadDir (stack : List Frame) (name : Wstr) (info : NodeInfo) (sub rest : Tree) :
    ahead stack (.dir name info sub rest) =
      ⟨dirNames stack,name,true,info⟩ :: ahead ((name,rest) :: stack) sub := by
  cases stack with
  | nil => simp [ahead,Tree.visits,dirNames]
  | cons frame stack => simp [ahead,Tree.visits,dirNames]

namespace WslReader
open Program (Triple)
variable (r : WslReader) (env : FsEnv) (w : Format)

def visits : List Visit := r.walked.visits []

structure Sequence (inv : List Visit → CopyState → Prop) (bad : Stop → CopyState → Prop) : Prop where
  moved : ∀ {done s} clock data root, inv done s →
    inv done {s with clock := clock, data := data, isRoot := root}
  calls : env.Works ∨ ∀ done s e, inv done s → bad e s
  lists : env.Lists
  visit : ∀ {done v rest}, r.visits = done ++ v :: rest →
    r.infoAt (r.base ++ v.path) v.dir = some v.info →
    Triple (inv done) (r.visitNode env w (r.base ++ v.path) v.dir) (fun _ => inv (done ++ [v])) bad

namespace Sequence
variable {r} {env} {w} {inv : List Visit → CopyState → Prop} {bad : Stop → CopyState → Prop}

def Behind (r : WslReader) (inv : List Visit → CopyState → Prop) (stack : List Frame) (t : Tree)
    (s : CopyState) : Prop := ∃ done, r.visits = done ++ ahead stack t ∧ inv done s

theorem behindFails (h : ∀ done s e, inv done s → bad e s) : Fails (Behind r inv) bad :=
  fun _ _ s e ⟨done,_,here⟩ => h done s e here

theorem stepped (sequence : r.Sequence env w inv bad) {stack stack' : List Frame} {t t' : Tree}
    {v : Visit} {path : Wstr} (next : ahead stack t = v :: ahead stack' t')
    (same : path = r.base ++ v.path) (there : r.infoAt path v.dir = some v.info) :
    Triple (Behind r inv stack t) (r.visitNode env w path v.dir) (fun _ => Behind r inv stack' t') bad := by
  subst same
  rintro s ⟨done,all,here⟩
  rw [next] at all
  refine (sequence.visit all there).weaken (fun _ h => h) (fun _ u h => ?_) (fun _ _ h => h) s here
  exact ⟨done ++ [v],by rw [all,List.append_assoc,List.singleton_append],h⟩

theorem traversal (sequence : r.Sequence env w inv bad) : r.Traversal env w (Behind r inv) bad where
  moved clock data root := fun ⟨done,all,here⟩ => ⟨done,all,sequence.moved clock data root here⟩
  leave h := h
  calls := sequence.calls.imp_right behindFails
  whole := .inl sequence.lists
  file {stack name info rest} there := by
    refine @stepped r env w inv bad sequence stack stack _ rest ⟨_,name,false,info⟩ _ (aheadFile ..) ?_ there
    simp [Visit.path,dirPath]
  dir {stack name info sub rest} there := by
    refine @stepped r env w inv bad sequence stack _ _ sub ⟨_,name,true,info⟩ _ (aheadDir ..) ?_ there
    simp [Visit.path,dirPath]

theorem runs (sequence : r.Sequence env w inv bad) (proper : r.tree.Proper) {fuel : Nat}
    (enough : r.tree.depth < fuel ∨ ∀ done s e, inv done s → bad e s) (rooted : r.format = .legacy →
      (r.tree.findDir rootfsName).isSome ∨ ∀ done s e, inv done s → bad e s) :
    Triple (fun s => s.data = r.base ∧ inv [] {s with idMap := []}) (r.run env w fuel)
      (fun _ => inv r.visits) bad := by
  have fails := @behindFails r inv bad
  refine (sequence.traversal.runWalk proper (enough.imp_right fun h _ _ _ => fails h _ _ _ _)
    fun legacy => (rooted legacy).imp_right fails).weaken (fun s h => ?_) (fun _ s h => ?_) fun _ _ h => h
  · exact ⟨h.1,[],rfl,h.2⟩
  · obtain ⟨done,all,here⟩ := h
    rw [show ahead [] .nil = [] from rfl,List.append_nil] at all
    exact all ▸ here

end Sequence
end WslReader
end LxRunOffline
