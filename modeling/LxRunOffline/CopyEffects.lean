import LxRunOffline.FileGroups
import LxRunOffline.MoveStores
import LxRunOffline.NodeOwner

/-! What a step of a copy that returns has put into the log, event by event, and what it has left
on the stack of the writer. Whatever fails throws, so nothing of it is missing. -/
namespace LxRunOffline
open Program (Moves)
open WslWriter (storedAs)

structure Puts (events : List FsEvent) (s t : CopyState) : Prop where
  path : t.path = s.path
  stack : t.dirAttr = s.dirAttr
  log : t.log = s.log ++ events

namespace Puts
variable {events more : List FsEvent} {s t u : CopyState} {own : Wstr} {α : Type} {x : Copy α} {a : α}

theorem trans (h : Puts events s t) (h' : Puts more t u) : Puts (events ++ more) s u :=
  ⟨h'.path.trans h.path,h'.stack.trans h.stack,by rw [h'.log,h.log,List.append_assoc]⟩

theorem ticked (h : Moves Ticked x) (run : x s = (.ok a,t)) : Puts [] s t := by
  obtain ⟨clock,same⟩ := h.final s
  rw [run] at same
  dsimp only at same
  subst same
  exact ⟨rfl,rfl,(List.append_nil _).symm⟩

theorem filed (adds : Adds events x) (files : Moves (Filing own) x) (run : x s = (.ok a,t)) : Puts events s t := by
  have kept := files.final s
  rw [run] at kept
  exact ⟨kept.path,kept.stack,adds.log s a t run⟩

end Puts

def FsEnv.Fresh (env : FsEnv) : Prop := ∀ time path, env.status time (.createDirectory path) ≠ errorAlreadyExists

namespace WslWriter
variable {env : FsEnv} {w : Format} {attr : Option FileAttr} {path : Wstr} {s t : CopyState} {stored : Bool}

theorem createFileAdds : Adds [.createdFile path] (create env path false) :=
  .ite nofun fun _ => .bind (.ticked (openFileTicked ..)) fun _ => .note _

theorem createDirAdds (fresh : env.Fresh) : Adds [.createdDirectory path] (create env path true) := by
  have made : Adds [.createdDirectory path] (createDirectory env path) := by
    refine ⟨fun s a t run => ?_⟩
    rw [createDirectory,Program.bindRun,Fs.call,Fs.ask] at run
    dsimp only at run
    split at run
    · cases run
      rfl
    · split at run
      · exact absurd (by assumption) (fresh _ _)
      · cases run
  exact .ite (fun _ => .bind made fun _ => .ticked (openFileTicked ..)) fun no => absurd rfl no

theorem finishAdds (type : UInt32) : Adds [] (finish env path type) :=
  .ite (fun _ => ⟨fun _ _ _ run => by cases run; exact (List.append_nil _).symm⟩) fun _ =>
    .ite (fun _ => .withPath path (.ticked (setCsInfoTicked path))) fun _ => .pure ()

def storesOf (w : Format) (path : Wstr) (attr : Option FileAttr) : List FsEvent :=
  (attr.map (storedAs w path)).getD []

theorem attrPuts (prompt : Prompt w (attr.map FileAttr.mode)) (run : writeAttr env w path attr s = (.ok (),t)) :
    Puts (storesOf w path attr) s t := by
  have adds : Adds (storesOf w path attr) (writeAttr env w path attr) := by
    cases attr with
    | none => exact .pure ()
    | some a => exact writeAttrAdds env w path fun v2 => prompt v2 a.mode rfl
  exact .filed adds (Filing.writeAttr env path prompt) run

theorem fileParts (run : writeFile env w attr s = (.ok stored,t)) : ∃ u v x,
    create env s.path.data (typeOf attr = aeIfdir) s = (.ok (),u) ∧
    writeAttr env w s.path.data attr u = (.ok (),v) ∧ finish env s.path.data (typeOf attr) v = (.ok (),x) ∧
    stored = true ∧ t = {x with log := x.log ++ [.accepted s.path.data]} := by
  obtain ⟨_,u,got,run⟩ := Program.bindOkSource run
  cases got
  obtain ⟨_,u,created,run⟩ := Program.bindOkSource run
  obtain ⟨_,v,wrote,run⟩ := Program.bindOkSource run
  obtain ⟨_,x,finished,run⟩ := Program.bindOkSource run
  cases run
  exact ⟨u,v,x,created,wrote,finished,rfl,rfl⟩

theorem filePuts (plain : typeOf attr ≠ aeIfdir) (run : writeFile env w attr s = (.ok stored,t)) :
    Puts (.createdFile s.path.data :: storesOf w s.path.data attr ++ [.accepted s.path.data]) s t ∧
      (typeOf attr = aeIfreg → t.hfData = some s.path.data) := by
  have prompt : Prompt w (attr.map FileAttr.mode) := by
    rintro - mode carries dir
    obtain ⟨a,rfl,rfl⟩ := Option.map_eq_some_iff.mp carries
    exact plain dir
  obtain ⟨u,v,x,created,wrote,finished,-,rfl⟩ := fileParts run
  rw [decide_eq_false plain] at created
  have last : Puts [] v x := .filed (finishAdds _) (Filing.finish env s.path.data _) finished
  have all := ((Puts.filed createFileAdds (Filing.create env _ _) created).trans (attrPuts prompt wrote)).trans last
  refine ⟨⟨all.path,all.stack,?_⟩,fun regular => ?_⟩
  · rw [all.log]
    simp
  · rw [finish,if_pos regular] at finished
    cases finished
    rfl

theorem dirPuts (fresh : env.Fresh) (dir : typeOf attr = aeIfdir) (old : w ≠ .v2)
    (run : writeFile env w attr s = (.ok stored,t)) :
    Puts (.createdDirectory s.path.data :: storesOf w s.path.data attr ++ [.accepted s.path.data]) s t := by
  obtain ⟨u,v,x,created,wrote,finished,-,rfl⟩ := fileParts run
  rw [decide_eq_true dir] at created
  have last : Puts [] v x := .filed (finishAdds _) (Filing.finish env s.path.data _) finished
  have all := ((Puts.filed (createDirAdds fresh) (Filing.create env _ _) created).trans
    (attrPuts (fun v2 => absurd v2 old) wrote)).trans last
  refine ⟨all.path,all.stack,?_⟩
  rw [all.log]
  simp

end WslWriter
namespace WslV2Writer
variable {env : FsEnv} {path : Wstr} {attr : FileAttr} {s t : CopyState} {stored : Bool}

theorem poppedPuts {dir : Wstr} {rest : List (Wstr × FileAttr)}
    (run : (do Fs.openFile env dir true false; storeAttr env dir attr : Copy Unit)
      {s with dirAttr := rest} = (.ok (),t)) :
    t.path = s.path ∧ t.dirAttr = rest ∧ t.log = s.log ++ stores dir attr := by
  obtain ⟨_,u,opened,run⟩ := Program.bindOkSource run
  have both := (Puts.ticked (openFileTicked ..) opened).trans
    (Puts.filed (storeAttrAdds env dir attr) (Filing.storeAttr dir env attr) run)
  exact ⟨both.path,both.stack,both.log⟩

theorem flushPuts {dirs : List (Wstr × FileAttr)} (stack : s.dirAttr = dirs)
    (run : flush env path dirs s = (.ok (),t)) : ∃ popped, dirs = popped ++ t.dirAttr ∧
      t.path = s.path ∧ t.log = s.log ++ storesAll popped := by
  induction dirs generalizing s with
  | nil =>
    cases run
    exact ⟨[],by simp [stack],rfl,by simp [storesAll]⟩
  | cons top rest ih =>
    obtain ⟨dir,attr⟩ := top
    rw [flush] at run
    split at run
    · cases run
      exact ⟨[],by simp [stack],rfl,by simp [storesAll]⟩
    · rw [Program.bindRun,Program.modifyRun] at run
      dsimp only at run
      rw [← Program.bindAssoc] at run
      obtain ⟨_,u,first,run⟩ := Program.bindOkSource run
      obtain ⟨path,left,log⟩ := poppedPuts first
      obtain ⟨popped,rfl,path',log'⟩ := ih left run
      exact ⟨(dir,attr) :: popped,rfl,path'.trans path,by simp [log',log,storesAll]⟩

theorem drainPuts {dirs : List (Wstr × FileAttr)} (run : drain env dirs s = (.ok (),t)) :
    t.log = s.log ++ storesAll dirs := by
  induction dirs generalizing s with
  | nil =>
    cases run
    simp [storesAll]
  | cons top rest ih =>
    obtain ⟨dir,attr⟩ := top
    rw [drain,Program.bindRun,Program.modifyRun] at run
    dsimp only at run
    rw [← Program.bindAssoc] at run
    obtain ⟨_,u,first,run⟩ := Program.bindOkSource run
    rw [ih run,(poppedPuts first).2.2,List.append_assoc]
    rfl

theorem dirPuts (fresh : env.Fresh) (dir : attr.type = aeIfdir)
    (run : WslWriter.writeFile env .v2 (some attr) s = (.ok stored,t)) : ∃ popped rest,
    s.dirAttr = popped ++ rest ∧ t.path = s.path ∧ t.dirAttr = (s.path.data,attr) :: rest ∧
    t.log = s.log ++ (.createdDirectory s.path.data :: storesAll popped ++ [.accepted s.path.data]) := by
  have isDir : typeOf (some attr) = aeIfdir := dir
  obtain ⟨u,v,x,created,wrote,finished,-,rfl⟩ := WslWriter.fileParts run
  rw [decide_eq_true isDir] at created
  have first := Puts.filed (WslWriter.createDirAdds fresh) (Filing.create env _ _) created
  have last : Puts [] v x := .filed (WslWriter.finishAdds _) (Filing.finish env s.path.data _) finished
  rw [WslWriter.writeAttr,if_pos rfl,writeAttr,if_pos dir] at wrote
  obtain ⟨_,y,got,wrote⟩ := Program.bindOkSource wrote
  cases got
  obtain ⟨_,y,flushed,wrote⟩ := Program.bindOkSource wrote
  obtain ⟨popped,split,path,log⟩ := flushPuts rfl flushed
  cases wrote
  refine ⟨popped,y.dirAttr,first.stack.symm.trans split,last.path.trans (path.trans first.path),last.stack,?_⟩
  have whole := last.log
  dsimp only at whole ⊢
  rw [whole,log,first.log]
  simp

end WslV2Writer

def FsWriter.fileEvents (w : Format) (path : Wstr) (attr : Option FileAttr) (pieces : List Bytes) : List FsEvent :=
  .createdFile path :: WslWriter.storesOf w path attr ++ .accepted path ::
    if typeOf attr = aeIfreg then pieces.map (.wrote path) else []

theorem FsWriter.linkPuts {env : FsEnv} {w : Format} {s t : CopyState} (wsl : w ≠ .linux)
    (free : s.targetPath.data ∉ s.ignored) (run : writeHardLink env w s = (.ok (),t)) :
    Puts [.hardLink s.path.data s.targetPath.data] s t := by
  have check : checkTargetIgnored s = (.ok true,s) := by
    simp [checkTargetIgnored,Program.bindRun,free]
  rw [writeHardLink,if_neg wsl,WslWriter.writeHardLink,Program.bindOk check,if_pos rfl] at run
  obtain ⟨_,_,got,run⟩ := Program.bindOkSource run
  cases got
  obtain ⟨_,_,noted,run⟩ := Program.bindOkSource run
  cases noted
  obtain ⟨code,_,asked,run⟩ := Program.bindOkSource run
  cases asked
  split at run
  · cases run
  · cases run
    exact ⟨rfl,rfl,rfl⟩

namespace WslReader
variable {r : WslReader} {env : FsEnv} {w : Format} {path p : Wstr} {info : NodeInfo} {s t : CopyState}

theorem copyDataPuts (wsl : w ≠ .linux) {reads : List Bytes} (open' : s.hfData = some p)
    (run : copyData env w path reads s = (.ok (),t)) :
    Puts ((reads.takeWhile (· ≠ [])).map (.wrote p)) s t := by
  have closed {s : CopyState} (run : FsWriter.writeFileData env w [] s = (.ok (),t)) : Puts [] s t := by
    rw [FsWriter.writeFileData,if_neg wsl] at run
    cases run
    exact ⟨rfl,rfl,(List.append_nil _).symm⟩
  induction reads generalizing s with
  | nil =>
    obtain ⟨code,u,asked,run⟩ := Program.bindOkSource run
    cases asked
    split at run
    · cases run
    · exact (⟨rfl,rfl,(List.append_nil _).symm⟩ : Puts [] s (Clocked.tick s)).trans (closed run)
  | cons piece rest ih =>
    obtain ⟨code,u,asked,run⟩ := Program.bindOkSource run
    cases asked
    split at run
    · cases run
    · obtain ⟨_,u,wrote,run⟩ := Program.bindOkSource run
      by_cases empty : piece = []
      · subst empty
        rw [Program.when,if_neg fun some' => some' rfl] at run
        cases run
        exact (⟨rfl,rfl,(List.append_nil _).symm⟩ : Puts [] s (Clocked.tick s)).trans (closed wrote)
      · rw [Program.when,if_pos empty] at run
        have one : Puts [.wrote p piece] s u ∧ u.hfData = some p := by
          rw [FsWriter.writeFileData,if_neg wsl,WslWriter.writeFileData,if_neg (by simpa using empty)] at wrote
          obtain ⟨_,x,got,wrote⟩ := Program.bindOkSource wrote
          cases got
          rw [show (Clocked.tick s).hfData = some p from open'] at wrote
          obtain ⟨_,x,got,wrote⟩ := Program.bindOkSource wrote
          cases got
          obtain ⟨code,x,asked,wrote⟩ := Program.bindOkSource wrote
          cases asked
          split at wrote
          · cases wrote
          · cases wrote
            exact ⟨⟨rfl,rfl,rfl⟩,open'⟩
        rw [List.takeWhile_cons_of_pos (by simpa using empty)]
        exact one.1.trans (ih one.2 run)

theorem storeFilePuts (wsl : w ≠ .linux) {attr : Option FileAttr} (accepts : FsWriter.passes attr true true = true)
    (plain : typeOf attr ≠ aeIfdir) (run : storeFile env w path info attr s = (.ok (),t)) :
    Puts (FsWriter.fileEvents w s.path.data attr info.pieces) s t := by
  obtain ⟨stored,u,wrote,run⟩ := Program.bindOkSource run
  rw [FsWriter.wslAccepts env wsl accepts] at wrote
  obtain ⟨first,open'⟩ := WslWriter.filePuts plain wrote
  obtain rfl := FsWriter.wslFileStores wrote
  have shape : FsWriter.fileEvents w s.path.data attr info.pieces =
      (.createdFile s.path.data :: WslWriter.storesOf w s.path.data attr ++ [.accepted s.path.data]) ++
      if typeOf attr = aeIfreg then info.pieces.map (.wrote s.path.data) else [] := by simp [FsWriter.fileEvents]
  rw [shape]
  refine first.trans ?_
  rw [if_pos rfl,Program.when] at run
  split at run
  · rename_i regular
    rw [if_pos regular]
    exact copyDataPuts wsl (open' regular) run
  · rename_i other
    cases run
    rw [if_neg other]
    exact ⟨rfl,rfl,(List.append_nil _).symm⟩

structure Shown (r : WslReader) (info : NodeInfo) (attr : Option FileAttr) : Prop where
  owner : attr.map FileAttr.owner = r.format.ownerOf info.eas
  target : typeOf attr = aeIflnk → ∃ target, r.targetOf info = some target ∧
    attr.bind FileAttr.symlink = some target
  size : ∀ a, attr = some a → a.size = info.size

theorem copyFileShown (taken : ∀ s attr t, r.readAttr env path info s = (.ok attr,t) → w.accepts attr = true)
    (valid : ¬ r.BadSymlink env path info) (run : r.copyFile env w path info s = (.ok (),t)) :
    ∃ attr u, r.Shown info attr ∧ w.accepts attr = true ∧ Puts [] s u ∧
      storeFile env w path info attr u = (.ok (),t) := by
  obtain ⟨attr,u,read,run⟩ := Program.bindOkSource run
  have owner := readAttrOwner read
  have still := Puts.ticked (r.readAttrTicked env path info) read
  have accepted := taken s attr u read
  split at run
  · rename_i link
    obtain ⟨target,v,found,run⟩ := Program.bindOkSource run
    have quiet := still.trans (Puts.ticked (r.readSymlinkTicked env path info) found)
    cases attr with
    | none => exact absurd link (by decide)
    | some a =>
      cases target with
      | none =>
        obtain ⟨v2,lost⟩ := r.readSymlinkNone env found
        exact absurd ⟨v2,⟨a.mode,r.readAttrMode env v2 read,link⟩,lost⟩ valid
      | some target =>
        have shown : r.Shown info (some {a with symlink := some target}) := by
          have size := readAttrSize read
          refine ⟨owner,fun _ => ⟨target,readSymlinkTarget found,rfl⟩,fun b same => ?_⟩
          cases same
          exact size
        exact ⟨some {a with symlink := some target},v,shown,accepted,quiet,run⟩
  · rename_i other
    refine ⟨attr,u,⟨owner,fun link => absurd link other,fun a same => ?_⟩,accepted,still,run⟩
    subst same
    exact readAttrSize read

theorem copyFilePuts (wsl : w ≠ .linux)
    (taken : ∀ s attr t, r.readAttr env path info s = (.ok attr,t) → w.accepts attr = true)
    (valid : ¬ r.BadSymlink env path info) (plain : ∀ mode, r.modeOf info = some mode → mode &&& aeIfmt ≠ aeIfdir)
    (run : r.copyFile env w path info s = (.ok (),t)) :
    ∃ attr, r.Shown info attr ∧ Puts (FsWriter.fileEvents w s.path.data attr info.pieces) s t := by
  obtain ⟨attr,u,shown,accepted,still,run⟩ := copyFileShown taken valid run
  have mode : r.modeOf info = attr.map FileAttr.mode := by
    rw [modeOfOwner,← shown.owner]
    cases attr <;> rfl
  have file : typeOf attr ≠ aeIfdir := by
    cases attr with
    | none => decide
    | some a => exact plain a.mode mode
  rw [Format.accepts,if_neg wsl] at accepted
  have stored := storeFilePuts wsl accepted file run
  rw [still.path] at stored
  exact ⟨attr,shown,still.trans stored⟩

end WslReader
end LxRunOffline
