import LxRunOffline.ExtractImage

/-! What an export puts into the archive, member by member: a file under the first of its names,
with what is read of it, and a link for every further name. -/
namespace LxRunOffline
open Grouping (valuesOf)

namespace Member

def after (done : List Member) : FsEvent → List Member
  | .header path attr => done ++ [.file path attr []]
  | .hardLink path target => done ++ [.link path target]
  | .archiveData bytes =>
    match done.getLast? with
    | some (.file path attr data) => done.dropLast ++ [.file path attr (data ++ bytes)]
    | _ => done
  | _ => done

def membersOf (log : List FsEvent) : List Member := log.foldl after []

theorem membersMore (log more : List FsEvent) : membersOf (log ++ more) = more.foldl after (membersOf log) :=
  List.foldl_append

theorem afterData (done : List Member) (path : Wstr) (attr : FileAttr) (data : Bytes) (pieces : List Bytes) :
    (pieces.map .archiveData).foldl after (done ++ [.file path attr data]) =
      done ++ [.file path attr (data ++ pieces.flatten)] := by
  induction pieces generalizing data with
  | nil => simp
  | cons piece rest ih =>
    have one : after (done ++ [.file path attr data]) (.archiveData piece) =
        done ++ [.file path attr (data ++ piece)] := by simp [after]
    rw [List.map_cons,List.foldl_cons,one,ih,List.flatten_cons,List.append_assoc]

end Member
open Member (membersOf membersMore afterData)

namespace ArchiveWriter
variable {env : FsEnv} {a : FileAttr} {s t : CopyState} {stored : Bool}

theorem toUtf8Adds (text : Wstr) : Adds [] (FsWriter.toUtf8 env text) :=
  .status fun _ => .ite (fun _ => .throws _) fun _ => .pure ()

theorem askLibraryAdds (c : FsCall) : Adds [] (FsWriter.askLibrary env c) := by
  refine ⟨fun s a t run => ?_⟩
  cases run
  exact (List.append_nil _).symm

theorem writeHeaderAdds (path : Wstr) (e : FsEvent) : Adds [e] (FsWriter.writeHeader env path e) :=
  .bind (.note e) fun _ => .bind (askLibraryAdds _) fun stat =>
    .bind (.ticked (ArchiveReader.checkArchiveTicked stat)) fun _ => .pure ()

theorem entryLog (some' : s.path.data ≠ []) (run : writeEntry env a s = (.ok stored,t)) : stored = true ∧
    t.log = s.log ++ [.header s.path.data (entryOf a),.accepted s.path.data] := by
  obtain ⟨_,_,got,run⟩ := Program.bindOkSource run
  cases got
  rw [if_neg (by simpa using some')] at run
  obtain ⟨_,u,text,run⟩ := Program.bindOkSource run
  obtain ⟨_,v,header,run⟩ := Program.bindOkSource run
  obtain ⟨_,x,noted,run⟩ := Program.bindOkSource run
  cases noted
  cases run
  refine ⟨rfl,?_⟩
  dsimp only
  rw [(writeHeaderAdds _ _).log u _ v header,(toUtf8Adds _).log s _ u text]
  simp

theorem namelessEntry (none' : s.path.data = []) (run : writeEntry env a s = (.ok stored,t)) : t = s := by
  obtain ⟨_,_,got,run⟩ := Program.bindOkSource run
  cases got
  rw [if_pos (by simpa using none')] at run
  exact (Prod.mk.inj run).2.symm

theorem dataLog {bytes : Bytes} (some' : bytes ≠ []) (run : writeFileData env bytes s = (.ok (),t)) :
    ∃ count, env.data s.clock bytes = .took count ∧ t.log = s.log ++ [.archiveData (bytes.take count)] := by
  rw [writeFileData,if_neg (by simpa using some')] at run
  obtain ⟨taken,u,asked,run⟩ := Program.bindOkSource run
  obtain ⟨answer,rfl⟩ := Prod.mk.inj asked
  obtain ⟨_,_,answered,run⟩ := Program.bindOkSource run
  cases answered
  cases taken with
  | failed text => cases run
  | took count =>
    cases run
    exact ⟨count,Except.ok.inj answer,rfl⟩

theorem linkLog (free : s.targetPath.data ∉ s.ignored) (run : FsWriter.writeHardLink env .linux s = (.ok (),t)) :
    t.log = s.log ++ [.hardLink s.path.data s.targetPath.data] := by
  have check : FsWriter.checkTargetIgnored s = (.ok true,s) := by
    simp [FsWriter.checkTargetIgnored,Program.bindRun,free]
  rw [FsWriter.writeHardLink,if_pos rfl,writeHardLink,Program.bindOk check,if_pos rfl] at run
  obtain ⟨_,_,got,run⟩ := Program.bindOkSource run
  cases got
  obtain ⟨_,u,own,run⟩ := Program.bindOkSource run
  obtain ⟨_,v,other,run⟩ := Program.bindOkSource run
  rw [(writeHeaderAdds _ _).log v _ t run,(toUtf8Adds _).log u _ v other,(toUtf8Adds _).log s _ u own]
  simp

end ArchiveWriter

def FsEnv.Takes (env : FsEnv) (pieces taken : List Bytes) : Prop :=
  List.Forall₂ (fun piece got => ∃ time count, env.data time piece = .took count ∧ got = piece.take count) pieces taken

def FsEnv.TakesWhole (env : FsEnv) (pieces : List Bytes) : Prop :=
  ∀ piece ∈ pieces, ∀ time count, env.data time piece = .took count → count = piece.length

theorem FsEnv.Takes.whole {env : FsEnv} {pieces taken : List Bytes} (takes : env.Takes pieces taken)
    (all : env.TakesWhole pieces) : taken = pieces := by
  induction takes with
  | nil => rfl
  | @cons piece got _ _ first _ ih =>
    obtain ⟨time,count,took,rfl⟩ := first
    rw [all piece List.mem_cons_self time count took,List.take_length,
      ih fun piece mem => all piece (List.mem_cons_of_mem _ mem)]

namespace WslReader
variable {r : WslReader} {env : FsEnv} {done rest : List Visit} {v : Visit} {s t u : CopyState} {path p : Wstr}
  {info : NodeInfo} {attr : Option FileAttr} {a : FileAttr}

theorem copyDataLog {reads : List Bytes} (run : copyData env .linux path reads s = (.ok (),t)) :
    ∃ taken, env.Takes (reads.takeWhile (· ≠ [])) taken ∧ t.log = s.log ++ taken.map .archiveData := by
  induction reads generalizing s with
  | nil =>
    obtain ⟨_,_,asked,run⟩ := Program.bindOkSource run
    cases asked
    split at run
    · cases run
    · cases run
      exact ⟨[],.nil,(List.append_nil _).symm⟩
  | cons piece rest ih =>
    obtain ⟨_,_,asked,run⟩ := Program.bindOkSource run
    cases asked
    split at run
    · cases run
    · obtain ⟨_,v,wrote,run⟩ := Program.bindOkSource run
      rw [Program.when] at run
      by_cases empty : piece = []
      · subst empty
        cases wrote
        cases run
        exact ⟨[],.nil,(List.append_nil _).symm⟩
      · obtain ⟨count,took,log⟩ := ArchiveWriter.dataLog empty wrote
        rw [if_pos empty] at run
        obtain ⟨taken,takes,log'⟩ := ih run
        rw [List.takeWhile_cons_of_pos (by simpa using empty)]
        refine ⟨piece.take count :: taken,.cons ⟨_,count,took,rfl⟩ takes,?_⟩
        rw [log',log,List.map_cons,List.append_assoc]
        rfl

def piecesOf (attr : Option FileAttr) (info : NodeInfo) : List Bytes :=
  if typeOf attr = aeIfreg then info.pieces else []

theorem storeFileLog (accepts : Format.linux.accepts attr = true) (some' : s.path.data ≠ [])
    (run : storeFile env .linux path info attr s = (.ok (),t)) : ∃ a taken, attr = some a ∧
      env.Takes (piecesOf attr info) taken ∧ t.log = s.log ++
        (.header s.path.data (ArchiveWriter.entryOf a) :: .accepted s.path.data :: taken.map .archiveData) := by
  cases attr with
  | none => cases accepts
  | some a =>
    obtain ⟨stored,u,wrote,run⟩ := Program.bindOkSource run
    rw [FsWriter.archiveAccepts env accepts] at wrote
    obtain ⟨rfl,log⟩ := ArchiveWriter.entryLog some' wrote
    rw [if_pos rfl,Program.when] at run
    split at run
    · rename_i regular
      obtain ⟨taken,takes,log'⟩ := copyDataLog run
      refine ⟨a,taken,rfl,?_,?_⟩
      · rw [piecesOf,if_pos regular]
        exact takes
      · rw [log',log,List.append_assoc]
        rfl
    · rename_i other
      cases run
      refine ⟨a,[],rfl,?_,log⟩
      rw [piecesOf,if_neg other]
      exact .nil

variable (r)

def Listed (v : Visit) : Bool := (r.lands .linux [] v).any (· ≠ [])

def firstName (v : Visit) : Option Wstr :=
  if v.dir then r.lands .linux [] v
  else (valuesOf Visit.fileIndex (r.lands .linux []) v.info.index r.visits).head?

variable (env) in
/- The member that an entry has become, with what the library has taken of its data. -/
def Archives (v : Visit) : Member → Prop
  | .file path attr data => r.lands .linux [] v = some path ∧ r.firstName v = some path ∧
    (∃ a, r.Shown v.info (some a) ∧ FsWriter.passes (some a) false false = true ∧ attr = ArchiveWriter.entryOf a) ∧
    ∃ taken, env.Takes (if v.dir = false ∧ r.typeIn v.info = aeIfreg then v.info.pieces else []) taken ∧
      data = taken.flatten
  | .link path target => r.lands .linux [] v = some path ∧ v.dir = false ∧ r.firstName v = some target ∧ target ≠ path

variable (env) in
def Exported (done : List Visit) (s : CopyState) : Prop :=
  ∃ parts : List (Visit × Member), parts.map Prod.fst = done.filter r.Listed ∧
    parts.map Prod.snd = membersOf s.log ∧ ∀ v m, (v,m) ∈ parts → r.Archives env v m

variable {r}

theorem Exported.skipped (h : r.Exported env done s) (log : t.log = s.log) (away : r.Listed v = false) :
    r.Exported env (done ++ [v]) t := by
  obtain ⟨parts,names,stored,all⟩ := h
  exact ⟨parts,by rw [names,List.filter_append,List.filter_singleton,away]; simp,by rw [stored,log],all⟩

theorem Exported.stored {m : Member} (h : r.Exported env done s) (listed : r.Listed v = true)
    (log : membersOf t.log = membersOf s.log ++ [m]) (own : r.Archives env v m) : r.Exported env (done ++ [v]) t := by
  obtain ⟨parts,names,stored,all⟩ := h
  refine ⟨parts ++ [(v,m)],?_,by simp [stored,log],fun u n mem => ?_⟩
  · rw [List.map_append,names,List.filter_append,List.filter_singleton,listed]
    rfl
  · rcases List.mem_append.mp mem with old | new
    · exact all u n old
    · cases List.mem_singleton.mp new
      exact own

theorem firstNameOf (all : r.visits = done ++ v :: rest) (file : v.dir = false)
    (landed : r.lands .linux [] v = some p) :
    r.firstName v = some (((valuesOf Visit.fileIndex (r.lands .linux []) v.info.index done).head?).getD p) := by
  rw [firstName,if_neg (by simp [file]),all]
  have split : done ++ v :: rest = (done ++ [v]) ++ rest := by simp
  have both (l l' : List Visit) : valuesOf Visit.fileIndex (r.lands .linux []) v.info.index (l ++ l') =
      valuesOf Visit.fileIndex (r.lands .linux []) v.info.index l ++
        valuesOf Visit.fileIndex (r.lands .linux []) v.info.index l' := by simp [valuesOf]
  rw [split,both,Grouping.valuesOfSnoc,if_pos (Visit.fileIndexFile file),landed]
  cases valuesOf Visit.fileIndex (r.lands .linux []) v.info.index done <;> rfl

variable (copyable : r.Copyable env .linux [])
include copyable

theorem exportedVisit (all : r.visits = done ++ v :: rest) (h : r.Exported env done s)
    (does : r.Does env .linux [] done v s t) : r.Exported env (done ++ [v]) t := by
  have mem : v ∈ r.visits := by simp [all]
  cases does with
  | skipped away silent => exact h.skipped silent.log (by simp [Listed,away])
  | @dir u silent landed isDir run =>
    obtain ⟨attr,x,read,run⟩ := Program.bindOkSource run
    obtain ⟨stored,y,wrote,run⟩ := Program.bindOkSource run
    obtain rfl : y = t := (Prod.mk.inj run).2
    have still := Puts.ticked (r.readAttrTicked env _ v.info) read
    have log : x.log = s.log := by rw [still.log,List.append_nil,silent.log]
    obtain ⟨mode,carries,isMode⟩ := (copyable.shaped v mem).mp isDir
    obtain ⟨a,rfl,rfl⟩ := Option.map_eq_some_iff.mp ((r.readAttrTold read).trans carries)
    have passes : FsWriter.passes (some a) false false = true := by
      rw [FsWriter.passes,show a.type = aeIfdir from isMode]
      decide
    rw [FsWriter.archiveAccepts env passes] at wrote
    rw [← still.path] at landed
    by_cases nameless : x.path.data = []
    · rw [ArchiveWriter.namelessEntry nameless wrote]
      exact h.skipped log (by simp [Listed,landed,nameless])
    · refine h.stored (by simp [Listed,landed,nameless]) ?_ (m := .file x.path.data (ArchiveWriter.entryOf a) [])
        ⟨landed,by rw [firstName,if_pos isDir,landed],⟨a,⟨readAttrOwner read,fun link => ?_,fun b same => ?_⟩,passes,
          rfl⟩,[],by simp [isDir,FsEnv.Takes],rfl⟩
      · rw [(ArchiveWriter.entryLog nameless wrote).2,membersMore,log]
        rfl
      · have both : aeIfdir = aeIflnk := isMode.symm.trans link
        exact absurd both (by decide)
      · cases same
        exact readAttrSize read
  | @file u silent landed file first run =>
    have there : (r.lands .linux [] v).isSome := by simp [landed]
    obtain ⟨attr,x,shown,accepts,still,run⟩ := copyFileShown (copyable.shareable.taken v mem file there)
      (copyable.shareable.valid v mem file there) run
    have log : x.log = s.log := by rw [still.log,List.append_nil,silent.log]
    rw [← still.path] at landed
    have some' : x.path.data ≠ [] := fun none' => by
      exact fileNamed copyable.encoded copyable.reader mem file (none' ▸ landed)
    obtain ⟨a,taken,rfl,takes,log'⟩ := storeFileLog accepts some' run
    have own := firstNameOf all file landed
    rw [first] at own
    have kept : membersOf t.log = membersOf s.log ++
        [.file x.path.data (ArchiveWriter.entryOf a) taken.flatten] := by
      rw [log',membersMore,log,List.foldl_cons,List.foldl_cons]
      exact afterData (membersOf s.log) _ _ [] taken
    refine h.stored (by simp [Listed,landed,some']) kept ⟨landed,own,⟨a,shown,accepts,rfl⟩,taken,?_,rfl⟩
    rw [piecesOf,shown.type] at takes
    simpa only [file,true_and] using takes
  | @link u silent landed file head free run =>
    have some' : u.path.data ≠ [] := fun none' => by
      exact fileNamed copyable.encoded copyable.reader mem file (none' ▸ landed)
    have own := firstNameOf all file landed
    rw [head] at own
    obtain ⟨o,before,-,landed'⟩ := firstVisit file head
    have other : u.targetPath.data ≠ u.path.data := fun same =>
      copyable.unused all landed o before (same ▸ landed')
    have kept : membersOf t.log = membersOf s.log ++ [.link u.path.data u.targetPath.data] := by
      rw [ArchiveWriter.linkLog free run,membersMore,silent.log]
      rfl
    exact h.stored (by simp [Listed,landed,some']) kept ⟨landed,file,own,other⟩

theorem exportedRun (clock : Nat) (answers : List ArchiveAnswer) (fuel : Nat)
    (run : r.run env .linux fuel (.newAt clock answers .linux [] r.base) = (.ok (),t)) :
    r.Exported env r.visits t :=
  (runVisited copyable (r.Exported env) ⟨[],rfl,rfl,by simp⟩
    (fun _ _ _ h silent => h.imp fun _ both => ⟨both.1,both.2.1.trans (congrArg membersOf silent.log.symm),both.2.2⟩)
    (fun _ _ _ _ _ all h does => exportedVisit copyable all h does) fuel).1 t run

theorem exportReturns (clock : Nat) (answers : List ArchiveAnswer) (fuel : Nat)
    (copies : r.Copies env .linux [] fuel) :
    ∃ t, r.run env .linux fuel (.newAt clock answers .linux [] r.base) = (.ok (),t) :=
  (runVisited copyable (fun _ _ => True) trivial
    (fun _ _ _ _ _ => trivial) (fun _ _ _ _ _ _ _ _ => trivial) fuel).2 copies

/- Every tree: an export that comes to its end has put every entry with a name into the archive
once, in the order of the walk. -/
theorem exportShown (fuel : Nat) :
    (∀ t, r.run env .linux fuel (.new .linux [] r.base) = (.ok (),t) → r.Exported env r.visits t) ∧
    (r.Copies env .linux [] fuel → ∃ t, r.run env .linux fuel (.new .linux [] r.base) = (.ok (),t)) :=
  ⟨fun _ run => exportedRun copyable 0 [] fuel run,exportReturns copyable 0 [] fuel⟩

end WslReader

def rootedTwice : WslReader := ⟨.v1,sourceBase,.dir (wstr "rootfs") (twoNames 0x41ed)
  (.file (wstr "f") threeNames (.file (wstr "g") threeNames .nil)) .nil⟩

theorem rootedEncoded : rootedTwice.tree.Encoded .v1 :=
  ⟨producedWord ⟨by decide,by decide⟩ (by decide),by decide,
    ⟨producedWord ⟨by decide,by decide⟩ (by decide),by decide,
      producedWord ⟨by decide,by decide⟩ (by decide),by decide,trivial⟩,trivial⟩

theorem rootedVisits : rootedTwice.visits = [⟨[],wstr "rootfs",true,twoNames 0x41ed⟩,
    ⟨[wstr "rootfs"],wstr "f",false,threeNames⟩,⟨[wstr "rootfs"],wstr "g",false,threeNames⟩] := rfl

theorem rootedFiles {v : Visit} (visited : v ∈ rootedTwice.visits) (file : v.dir = false) : v.info = threeNames := by
  rw [rootedVisits] at visited
  simp only [List.mem_cons,List.not_mem_nil,or_false] at visited
  rcases visited with rfl | rfl | rfl
  · cases file
  all_goals rfl

theorem rootedShareable : rootedTwice.Shareable plainFs .linux [] where
  counted v visited file := by
    rw [Visit.fileIndexFile file,rootedFiles visited file]
    decide
  taken v visited file _ s attr t read := by
    obtain ⟨attr',t',read',mode⟩ := rootedTwice.readAttrWorks plainWorks (rootedTwice.base ++ v.path) v.info s
    obtain rfl : attr' = attr := Except.ok.inj (Prod.mk.inj (read'.symm.trans read)).1
    rw [rootedFiles visited file] at mode
    cases attr' with
    | none => cases mode
    | some a =>
      have regular : a.mode = 0x81a4 := Option.some.inj mode
      rw [Format.accepts,if_pos rfl,FsWriter.passes,FileAttr.type,regular]
      decide
  valid v visited file _ bad := by
    rw [WslReader.BadSymlink,rootedFiles visited file] at bad
    exact absurd bad.1 (by decide)

theorem rootedCopyable : rootedTwice.Copyable plainFs .linux [] where
  reader := by decide
  encoded := rootedEncoded
  unmistaken v2 := absurd v2 (by decide)
  shaped v visited := by
    rw [rootedVisits] at visited
    simp only [List.mem_cons,List.not_mem_nil,or_false] at visited
    have regular : rootedTwice.modeOf threeNames = some 0x81a4 := rfl
    have directory : rootedTwice.modeOf (twoNames 0x41ed) = some 0x41ed := rfl
    rcases visited with rfl | rfl | rfl <;> simp only [regular,directory] <;> decide
  oneFile u visited v visited' same := by
    rw [rootedFiles visited same.files.1,rootedFiles visited' same.files.2]
  shareable := rootedShareable
  lists := plainWorks.lists

theorem exportShownRooted :
    (∀ t, rootedTwice.run plainFs .linux 4 (.new .linux [] rootedTwice.base) = (.ok (),t) →
      rootedTwice.Exported plainFs rootedTwice.visits t) ∧
    (rootedTwice.Copies plainFs .linux [] 4 →
      ∃ t, rootedTwice.run plainFs .linux 4 (.new .linux [] rootedTwice.base) = (.ok (),t)) :=
  WslReader.exportShown rootedCopyable 4

end LxRunOffline
