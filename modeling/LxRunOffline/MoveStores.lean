import LxRunOffline.Adds
import LxRunOffline.Commands
import LxRunOffline.CopyBelow
import LxRunOffline.VisitTargets

/-! What a move by copying has stored when it begins to delete its source. The attributes that a
v2 writer puts off are stored by its destructor, and that runs when the source is gone. -/
namespace LxRunOffline
open Program (Moves)
open WslWriter (storedAs)

namespace WslWriter
variable {env : FsEnv} {w : Format} {attr : FileAttr} {s t : CopyState} {stored : Bool}

theorem writeFileStores (prompt : w = .v2 → attr.type ≠ aeIfdir)
    (run : writeFile env w (some attr) s = (.ok stored,t)) : ∃ before after,
      t.log = s.log ++ (before ++ storedAs w s.path.data attr ++ after) := by
  obtain ⟨u,v,first,wrote,rest⟩ := writeFileParts (Filing.create env _ _) (Filing.finish env _ _)
    (Filing.note fun _ no => by cases no) run
  obtain ⟨before,log,-⟩ := first.log
  obtain ⟨after,log',-⟩ := rest.log
  refine ⟨before,after,?_⟩
  rw [log',(writeAttrAdds env w s.path.data prompt).log u _ v wrote,log]
  simp

theorem writeFileDefers (dir : attr.type = aeIfdir) (run : writeFile env .v2 (some attr) s = (.ok stored,t)) :
    t.dirAttr ≠ [] := by
  obtain ⟨u,v,-,wrote,rest⟩ := writeFileParts (Filing.create env _ _) (Filing.finish env _ _)
    (Filing.note fun _ no => by cases no) run
  have pushed : v.dirAttr ≠ [] := by
    rw [writeAttr,if_pos rfl,WslV2Writer.writeAttr,if_pos dir] at wrote
    obtain ⟨_,x,-,wrote⟩ := Program.bindOkSource wrote
    obtain ⟨_,y,-,wrote⟩ := Program.bindOkSource wrote
    cases wrote
    exact List.cons_ne_nil _ _
  exact rest.stack ▸ pushed

end WslWriter
namespace WslReader
variable {r : WslReader} {env : FsEnv} {w : Format} {base path p : Wstr} {info : NodeInfo}
  {attr : Option FileAttr} {s t u : CopyState}

theorem newFileStores (wsl : w ≠ .linux) {a : FileAttr} (prompt : w = .v2 → a.type ≠ aeIfdir) {stored : Bool}
    (run : FsWriter.writeNewFile env w (some a) s = (.ok stored,t)) : ∃ more, t.log = s.log ++ more ∧
      (FsEvent.accepted p ∈ more → ∀ e ∈ storedAs w s.path.data a, e ∈ more) := by
  by_cases accepts : FsWriter.passes (some a) true true = true
  · rw [FsWriter.wslAccepts env wsl accepts] at run
    obtain ⟨before,after,log⟩ := WslWriter.writeFileStores prompt run
    exact ⟨_,log,fun _ e mem => by simp [mem]⟩
  · rw [FsWriter.wslRefuses env wsl accepts] at run
    cases run
    exact ⟨[],(List.append_nil _).symm,fun no => by cases no⟩

def Gives (r : WslReader) (env : FsEnv) (path : Wstr) (info : NodeInfo) (attr : FileAttr) : Prop :=
  ∃ read s t, r.readAttr env path info s = (.ok (some read),t) ∧ (attr = read ∨ ∃ target u v,
    r.readSymlinkData env path info u = (.ok (some target),v) ∧ attr = {read with symlink := some target})

def Complete (r : WslReader) (env : FsEnv) (w : Format) (path : Wstr) (info : NodeInfo) (more : List FsEvent) : Prop :=
  ∀ p, .accepted p ∈ more → r.modeOf info = none ∨
    ∃ attr, r.Gives env path info attr ∧ ∀ e ∈ storedAs w p attr, e ∈ more

def Completes (r : WslReader) (env : FsEnv) (w : Format) (path : Wstr) (info : NodeInfo) (s t : CopyState) : Prop :=
  ∃ more, t.log = s.log ++ more ∧ r.Complete env w path info more

theorem completesTicked (later : Ticked s t) (h : r.Completes env w path info t u) :
    r.Completes env w path info s u := by
  obtain ⟨clock,rfl⟩ := later
  exact h

theorem silentCompletes (same : t.log = s.log) : r.Completes env w path info s t :=
  ⟨[],by rw [same,List.append_nil],fun p no => by cases no⟩

theorem completesData (h : r.Completes env w path info s t) (later : Within DataEvent t u) :
    r.Completes env w path info s u := by
  obtain ⟨more,log,complete⟩ := h
  obtain ⟨data,log',only⟩ := later.log
  refine ⟨more ++ data,by rw [log',log,List.append_assoc],fun p accepted => ?_⟩
  rcases List.mem_append.mp accepted with early | late
  · refine (complete p early).imp_right fun ⟨attr,gives,stores⟩ => ⟨attr,gives,fun e mem => ?_⟩
    exact List.mem_append_left _ (stores e mem)
  · cases only _ late

theorem newFileCompletes (wsl : w ≠ .linux) (prompt : Prompt w (r.modeOf info))
    (handed : attr.map FileAttr.mode = r.modeOf info) (gives : ∀ a, attr = some a → r.Gives env path info a)
    {stored : Bool} (run : FsWriter.writeNewFile env w attr s = (.ok stored,t)) : r.Completes env w path info s t := by
  have making := (Makes.writeNewFile env w attr).final s
  rw [run] at making
  obtain ⟨more,log,made⟩ := making.log
  cases attr with
  | none => exact ⟨more,log,fun p _ => .inl handed.symm⟩
  | some a =>
    refine ⟨more,log,fun p accepted => .inr ⟨a,gives a rfl,?_⟩⟩
    have plain : w = .v2 → a.type ≠ aeIfdir := fun v2 => prompt v2 a.mode handed.symm
    obtain ⟨more',log',stores⟩ := @newFileStores env w p s t wsl a plain stored run
    obtain rfl : more = more' := List.append_cancel_left (log.symm.trans log')
    rw [made _ accepted p (.inr rfl)]
    exact stores accepted

theorem storedCompletes (wsl : w ≠ .linux) (prompt : Prompt w (r.modeOf info))
    (handed : attr.map FileAttr.mode = r.modeOf info) (gives : ∀ a, attr = some a → r.Gives env path info a)
    (run : storeFile env w path info attr s = (.ok (),t)) : r.Completes env w path info s t := by
  obtain ⟨stored,u,wrote,run⟩ := Program.bindOkSource run
  have quiet : Emits DataEvent (if stored = true then
      Program.when (typeOf attr = aeIfreg) (copyData env w path info.reads) else pure ()) :=
    .ite (fun _ => .when fun _ => copyDataEmits ..) (fun _ => .pure ())
  exact completesData (newFileCompletes wsl prompt handed gives wrote) (quiet.returned run)

theorem copyFileCompletes (wsl : w ≠ .linux) (prompt : Prompt w (r.modeOf info))
    (run : r.copyFile env w path info s = (.ok (),t)) : r.Completes env w path info s t := by
  obtain ⟨attr,u,read,run⟩ := Program.bindOkSource run
  have told := r.readAttrTold read
  have ticked := (r.readAttrTicked env path info).final s
  rw [read] at ticked
  refine completesTicked ticked ?_
  split at run
  · obtain ⟨target,v,links,run⟩ := Program.bindOkSource run
    have ticked := (r.readSymlinkTicked env path info).final u
    rw [links] at ticked
    refine completesTicked ticked ?_
    cases attr with
    | none =>
      cases run
      exact silentCompletes rfl
    | some a => cases target with
      | none =>
        cases run
        exact silentCompletes rfl
      | some target =>
        have same : (some {a with symlink := some target}).map FileAttr.mode = r.modeOf info := told
        refine storedCompletes wsl prompt same (fun b same => ?_) run
        cases same
        exact ⟨a,s,u,read,.inr ⟨target,u,v,links,rfl⟩⟩
  · refine storedCompletes wsl prompt told (fun b same => ?_) run
    cases same
    exact ⟨b,s,u,read,.inl rfl⟩

theorem linkCompletes (first : FilePath) (run : linkFile env w first s = (.ok (),t)) :
    r.Completes env w path info s t := by
  obtain ⟨converted,u,target,run⟩ := Program.bindOkSource run
  have same : u.log = s.log := by rw [← (Prod.mk.inj target).2]
  cases converted with
  | false =>
    cases run
    exact silentCompletes same
  | true =>
    rw [if_pos rfl] at run
    by_cases free : u.targetPath.data ∈ u.ignored
    · rw [FsWriter.refusedLink env w free] at run
      cases run
      exact silentCompletes same
    · have linked := (FsWriter.emittedLink env w free).log
      rw [run] at linked
      obtain ⟨more,log,all⟩ := linked
      exact ⟨more,by rw [← same]; exact log,fun p accepted => by cases all _ accepted⟩

theorem newFileDefers {mode : UInt32} (handed : attr.map FileAttr.mode = some mode) (dir : mode &&& aeIfmt = aeIfdir)
    {stored : Bool} (run : FsWriter.writeNewFile env .v2 attr s = (.ok stored,t)) : t.dirAttr ≠ [] := by
  obtain ⟨a,rfl,rfl⟩ := Option.map_eq_some_iff.mp handed
  have isDir : a.type = aeIfdir := dir
  have passes : FsWriter.passes (some a) true true = true := by simp [FsWriter.passes,FsWriter.supported,isDir]
  rw [FsWriter.wslAccepts env (by decide) passes] at run
  exact WslWriter.writeFileDefers isDir run

theorem copyFileDefers {mode : UInt32} (handed : r.modeOf info = some mode) (dir : mode &&& aeIfmt = aeIfdir)
    (run : r.copyFile env .v2 path info s = (.ok (),t)) : t.dirAttr ≠ [] := by
  obtain ⟨attr,u,read,run⟩ := Program.bindOkSource run
  have told := (r.readAttrTold read).trans handed
  obtain ⟨a,rfl,rfl⟩ := Option.map_eq_some_iff.mp told
  have isDir : typeOf (some a) = aeIfdir := dir
  rw [if_neg (by rw [isDir]; decide)] at run
  obtain ⟨stored,v,wrote,run⟩ := Program.bindOkSource run
  have waits := newFileDefers rfl dir wrote
  rw [isDir,Program.when,if_neg (by decide : ¬ aeIfdir = aeIfreg),ite_self] at run
  cases run
  exact waits

def Further (r : WslReader) (w : Format) (base : Wstr) (before : List Visit) (v : Visit) : Prop :=
  v.dir = false ∧ 1 < v.info.links ∧ ∃ u ∈ before, u.dir = false ∧ 1 < u.info.links ∧
    u.info.index = v.info.index ∧ (r.lands w base u).isSome

def Deferred (r : WslReader) (w : Format) (base : Wstr) (before : List Visit) (v : Visit) : Prop :=
  w = .v2 ∧ (r.lands w base v).isSome ∧ ¬ r.Further w base before v ∧
    ∃ mode, r.modeOf v.info = some mode ∧ mode &&& aeIfmt = aeIfdir

def AllPrompt (r : WslReader) (w : Format) (base : Wstr) (visits : List Visit) : Prop :=
  ∀ before v after, visits = before ++ v :: after → ¬ r.Deferred w base before v

variable {done : List Visit} {v : Visit}

theorem allPromptSnoc : r.AllPrompt w base (done ++ [v]) ↔ r.AllPrompt w base done ∧ ¬ r.Deferred w base done v := by
  constructor
  · intro h
    exact ⟨fun before u after split => h before u (after ++ [v]) (by simp [split]),h done v [] rfl⟩
  · rintro ⟨earlier,last⟩ before u after split
    rcases List.eq_nil_or_concat after with rfl | ⟨after,x,rfl⟩
    · obtain ⟨rfl,same⟩ := List.append_inj' split rfl
      cases same
      exact last
    · rw [List.concat_eq_append,← List.cons_append,← List.append_assoc] at split
      exact earlier before u after (List.append_inj' split rfl).1

structure Visited (r : WslReader) (env : FsEnv) (w : Format) (base : Wstr) (done : List Visit) (v : Visit)
    (s t : CopyState) : Prop where
  path : t.path.reset = s.path.reset
  known : ∀ index, (t.idMap.lookup index).isSome ↔ (s.idMap.lookup index).isSome ∨
    v.dir = false ∧ 1 < v.info.links ∧ v.info.index = index ∧ (r.lands w base v).isSome
  prompt : ¬ r.Deferred w base done v → t.dirAttr = s.dirAttr ∧ r.Completes env w (r.base ++ v.path) v.info s t
  deferred : r.Deferred w base done v → t.dirAttr ≠ []

theorem convertLands {converted : Bool} (fresh : s.path.reset = w.fresh base)
    (run : convertPath (r.pathAt (r.base ++ v.path)) s = (.ok converted,t)) :
    (r.lands w base v).isSome = converted ∧ t = {s with path := t.path} ∧ t.path.reset = s.path.reset := by
  obtain ⟨outcome,rfl⟩ := Prod.mk.inj run
  refine ⟨?_,rfl,FilePath.convertReset _ s.path⟩
  cases converted with
  | true => exact Option.isSome_of_eq_some (landsReaches.mpr (convertPathReaches fresh run))
  | false =>
    refine Option.isSome_eq_false_iff.mpr (Option.isNone_iff_eq_none.mpr (Option.eq_none_iff_forall_not_mem.mpr ?_))
    intro p landed
    obtain ⟨out,reached,-⟩ := landsReaches.mp landed
    rw [← fresh] at reached
    rw [FilePath.convertServed (.inr (congrArg Prod.fst reached)),reached] at outcome
    cases outcome

theorem promptEntry (landed : (r.lands w base v).isSome) (own : ¬ r.Further w base done v)
    (prompt : ¬ r.Deferred w base done v) : Prompt w (r.modeOf v.info) :=
  fun v2 mode carries dir => prompt ⟨v2,landed,own,mode,carries,dir⟩

theorem visitDirVisited (wsl : w ≠ .linux) (dir : v.dir = true) (landed : (r.lands w base v).isSome)
    (run : r.visitDir env w (r.base ++ v.path) v.info s = (.ok (),t)) : r.Visited env w base done v s t := by
  obtain ⟨attr,u,read,run⟩ := Program.bindOkSource run
  obtain ⟨stored,x,wrote,run⟩ := Program.bindOkSource run
  obtain rfl : x = t := (Prod.mk.inj run).2
  have told := r.readAttrTold read
  have own : ¬ r.Further w base done v := fun further => by simp [further.1] at dir
  have ticked := (r.readAttrTicked env (r.base ++ v.path) v.info).final s
  rw [read] at ticked
  have same := ticked
  obtain ⟨clock,rfl⟩ := same
  have settles := FsWriter.writeNewFileSettles env w attr {s with clock := clock}
  rw [wrote] at settles
  refine ⟨congrArg FilePath.reset settles.1.path,fun index => ?_,fun prompt => ?_,fun ⟨v2,_,_,mode,carries,isDir⟩ => ?_⟩
  · rw [settles.1.idMap]
    simp [dir]
  · have now := promptEntry landed own prompt
    have filed := (@Filed.writeNewFile env w attr wsl (told ▸ now)).final {s with clock := clock}
    rw [wrote] at filed
    refine ⟨filed.stack,completesTicked ticked (newFileCompletes wsl now told (fun a some' => ?_) wrote)⟩
    exact ⟨a,s,_,some' ▸ read,.inl rfl⟩
  · subst v2
    exact newFileDefers (told.trans carries) isDir wrote

theorem copyFileKeepsMap (run : r.copyFile env w path info s = (.ok (),t)) : t.idMap = s.idMap := by
  have settles := r.copyFileSettles env w path info s
  rw [run] at settles
  exact settles.1.idMap

theorem copiedVisited (wsl : w ≠ .linux) (landed : (r.lands w base v).isSome) (own : ¬ r.Further w base done v)
    (known : ∀ index, (u.idMap.lookup index).isSome ↔ (s.idMap.lookup index).isSome ∨
      v.dir = false ∧ 1 < v.info.links ∧ v.info.index = index ∧ (r.lands w base v).isSome)
    (same : u.path = s.path ∧ u.dirAttr = s.dirAttr ∧ u.log = s.log)
    (run : r.copyFile env w (r.base ++ v.path) v.info u = (.ok (),t)) : r.Visited env w base done v s t := by
  obtain ⟨path,stack,log⟩ := same
  have making := (r.copyFileMakes env w (r.base ++ v.path) v.info).final u
  rw [run] at making
  refine ⟨congrArg FilePath.reset (making.path.trans path),fun index => ?_,fun prompt => ?_,
    fun ⟨v2,_,_,mode,carries,isDir⟩ => ?_⟩
  · rw [copyFileKeepsMap run]
    exact known index
  · have now := promptEntry landed own prompt
    have filed := (@copyFileFiled r env w v.info wsl (r.base ++ v.path) now).final u
    rw [run] at filed
    obtain ⟨more,log',complete⟩ := copyFileCompletes wsl now run
    exact ⟨filed.stack.trans stack,more,log ▸ log',complete⟩
  · subst v2
    exact copyFileDefers carries isDir run

theorem linkKeeps (wsl : w ≠ .linux) {first : FilePath} (run : linkFile env w first s = (.ok (),t)) :
    t.path = s.path ∧ t.idMap = s.idMap ∧ t.dirAttr = s.dirAttr := by
  have filed : Moves Filed (linkFile env w first) := by
    have target : Moves Filed (convertTarget first) := ⟨fun _ => Filing.silent rfl rfl rfl⟩
    exact .bind target fun _ => .ite (fun _ => Filed.writeHardLink wsl) fun _ => .pure ()
  have kept := filed.final s
  rw [run] at kept
  refine ⟨kept.path,?_,kept.stack⟩
  obtain ⟨converted,u,target,run⟩ := Program.bindOkSource run
  have same : u.idMap = s.idMap := by rw [← (Prod.mk.inj target).2]
  cases converted with
  | false =>
    cases run
    exact same
  | true =>
    rw [if_pos rfl] at run
    by_cases free : u.targetPath.data ∈ u.ignored
    · rw [FsWriter.refusedLink env w free] at run
      cases run
      exact same
    · have linked := FsWriter.emittedLink env w free
      rw [run] at linked
      exact linked.idMap.trans same

theorem visitFileVisited (wsl : w ≠ .linux) (file : v.dir = false) (landed : (r.lands w base v).isSome)
    (further : 1 < v.info.links → ((s.idMap.lookup v.info.index).isSome ↔ r.Further w base done v))
    (run : r.visitFile env w (r.base ++ v.path) v.info s = (.ok (),t)) : r.Visited env w base done v s t := by
  obtain ⟨code,u,asked,run⟩ := Program.bindOkSource run
  cases asked
  split at run
  · cases run
  split at run
  · rename_i links
    cases first : s.idMap.lookup v.info.index with
    | some known =>
      have lookup : (Clocked.tick s).idMap.lookup v.info.index = some known := first
      rw [Program.bindRun,Program.getRun] at run
      dsimp only at run
      rw [lookup] at run
      have isFurther := (further links).mp (by rw [first]; rfl)
      have complete : r.Completes env w (r.base ++ v.path) v.info (Clocked.tick s) t := linkCompletes known run
      have kept := linkKeeps wsl run
      refine ⟨congrArg FilePath.reset kept.1,fun index => ?_,fun _ => ⟨kept.2.2,complete⟩,
        fun defers => absurd isFurther defers.2.2.1⟩
      rw [kept.2.1]
      by_cases same : index = v.info.index
      · simp [same,first,Clocked.tick]
      · simp [Ne.symm same,Clocked.tick]
    | none =>
      have lookup : (Clocked.tick s).idMap.lookup v.info.index = none := first
      rw [Program.bindRun,Program.getRun] at run
      dsimp only at run
      rw [lookup] at run
      have own : ¬ r.Further w base done v := fun yes => by simpa [first] using (further links).mpr yes
      let entered : CopyState := {Clocked.tick s with
        idMap := (v.info.index,r.pathAt (r.base ++ v.path)) :: s.idMap}
      refine copiedVisited (u := entered) wsl landed own (fun index => ?_) ⟨rfl,rfl,rfl⟩ run
      by_cases same : index = v.info.index
      · simp [entered,same,links,file,landed]
      · have other : (index == v.info.index) = false := beq_eq_false_iff_ne.mpr same
        simp [entered,List.lookup_cons,other,Ne.symm same]
  · rename_i links
    have own : ¬ r.Further w base done v := fun yes => links yes.2.1
    refine copiedVisited (u := Clocked.tick s) wsl landed own (fun index => ?_) ⟨rfl,rfl,rfl⟩ run
    simp [links,Clocked.tick]

theorem visitNodeVisited (wsl : w ≠ .linux) (fresh : s.path.reset = w.fresh base)
    (further : v.dir = false → 1 < v.info.links → ((s.idMap.lookup v.info.index).isSome ↔ r.Further w base done v))
    (there : r.infoAt (r.base ++ v.path) v.dir = some v.info)
    (run : r.visitNode env w (r.base ++ v.path) v.dir s = (.ok (),t)) : r.Visited env w base done v s t := by
  obtain ⟨converted,u,conversion,run⟩ := Program.bindOkSource run
  obtain ⟨lands,moved,reset⟩ := convertLands fresh conversion
  have from' (h : r.Visited env w base done v u t) : r.Visited env w base done v s t := by
    rw [moved] at h
    obtain ⟨path,known,prompt,deferred⟩ := h
    exact ⟨path.trans reset,known,prompt,deferred⟩
  cases converted with
  | false =>
    cases run
    have away : ¬ (r.lands w base v).isSome := by simp [lands]
    refine from' ⟨rfl,fun index => by simp [away],fun _ => ⟨rfl,silentCompletes rfl⟩,
      fun defers => absurd defers.2.1 away⟩
  | true =>
    rw [if_pos rfl] at run
    obtain ⟨info,x,opened,run⟩ := Program.bindOkSource run
    obtain rfl : v.info = info := Option.some.inj (there.symm.trans (r.openNodeSource env opened))
    obtain ⟨clock,same⟩ := (r.openNodeTicked env (r.base ++ v.path) v.dir).final u
    rw [opened] at same
    dsimp only at same
    subst same
    refine from' ?_
    have after (h : r.Visited env w base done v {u with clock := clock} t) : r.Visited env w base done v u t :=
      ⟨h.path,h.known,h.prompt,h.deferred⟩
    refine after ?_
    split at run
    · exact visitDirVisited wsl (by assumption) lands run
    · rename_i notDir
      have file : v.dir = false := Bool.eq_false_iff.mpr notDir
      refine visitFileVisited wsl file lands (fun links => ?_) run
      rw [← further file links,moved]

structure Moving (r : WslReader) (env : FsEnv) (w : Format) (base : Wstr) (old : List FsEvent) (done : List Visit)
    (s : CopyState) : Prop where
  path : s.path.reset = w.fresh base
  known : ∀ index, (s.idMap.lookup index).isSome ↔ ∃ u ∈ done, u.dir = false ∧ 1 < u.info.links ∧
    u.info.index = index ∧ (r.lands w base u).isSome
  prompt : r.AllPrompt w base done → s.dirAttr = [] ∧ ∃ cut : List (Visit × List FsEvent),
    cut.map Prod.fst = done ∧ s.log = old ++ cut.flatMap Prod.snd ∧
      ∀ x ∈ cut, r.Complete env w (r.base ++ x.1.path) x.1.info x.2
  waits : ¬ r.AllPrompt w base done → s.dirAttr ≠ []

theorem Moving.visited {old : List FsEvent} (h : r.Moving env w base old done s)
    (visit : r.Visited env w base done v s t) : r.Moving env w base old (done ++ [v]) t := by
  refine ⟨visit.path.trans h.path,fun index => ?_,fun all => ?_,fun some' => ?_⟩
  · rw [visit.known,h.known]
    simp [or_and_right,exists_or]
  · obtain ⟨earlier,now⟩ := allPromptSnoc.mp all
    obtain ⟨stack,cut,own,log,complete⟩ := h.prompt earlier
    obtain ⟨same,more,log',last⟩ := visit.prompt now
    refine ⟨same.trans stack,cut ++ [(v,more)],by simp [own],by simp [log',log],fun x mem => ?_⟩
    rcases List.mem_append.mp mem with old' | new
    · exact complete x old'
    · exact List.mem_singleton.mp new ▸ last
  · by_cases now : r.Deferred w base done v
    · exact visit.deferred now
    · have earlier : ¬ r.AllPrompt w base done := fun all => some' (allPromptSnoc.mpr ⟨all,now⟩)
      exact (visit.prompt now).1 ▸ h.waits earlier

theorem Moving.sequence {old : List FsEvent} (wsl : w ≠ .linux) (lists : env.Lists) :
    r.Sequence env w (r.Moving env w base old) fun _ _ => True where
  moved _ _ _ h := ⟨h.path,h.known,h.prompt,h.waits⟩
  calls := .inr fun _ _ _ _ => trivial
  lists := lists
  visit {done v rest} all there := by
    intro s h
    cases run : r.visitNode env w (r.base ++ v.path) v.dir s with
    | mk outcome t =>
      cases outcome with
      | error e => trivial
      | ok _ =>
        refine h.visited (visitNodeVisited wsl h.path (fun file links => ?_) there run)
        rw [h.known,Further]
        simp [file,links]

end WslReader
end LxRunOffline
