import LxRunOffline.Extents
import LxRunOffline.Shape

/-! What a file extracted from an archive holds. The writer appends the blocks one after the
other and takes an empty one for the end of the file; their offsets never reach it. -/
namespace LxRunOffline

def contentStep (path : Wstr) (held : Option Bytes) : FsEvent → Option Bytes
  | .createdFile p => if p = path then some [] else held
  | .wrote p bytes => if p = path then held.map (· ++ bytes) else held
  | _ => held

def contents (log : List FsEvent) (path : Wstr) : Option Bytes := log.foldl (contentStep path) none

theorem contentsMore (log more : List FsEvent) (path : Wstr) :
    contents (log ++ more) path = more.foldl (contentStep path) (contents log path) := by
  rw [contents,List.foldl_append,contents]

theorem Within.sameContents {kind : FsEvent → Prop} {s t : CopyState} (h : Within kind s t)
    {path : Wstr} (quiet : ∀ e held, kind e → contentStep path held e = held) :
    contents t.log path = contents s.log path := by
  obtain ⟨more,log,all⟩ := h.log
  rw [log,contentsMore]
  clear log
  induction more generalizing s with
  | nil => rfl
  | cons e more ih =>
    rw [List.foldl_cons,quiet e _ (all e (by simp))]
    exact ih h fun e' mem => all e' (by simp [mem])

theorem attrKeepsContents (path : Wstr) (e : FsEvent) (held : Option Bytes) (h : AttrEvent e) :
    contentStep path held e = held := by
  cases h <;> rfl

namespace WslWriter
variable {env : FsEnv} (w : Format) {attr : FileAttr}

theorem plainFileRun (works : env.Works) (wsl : w ≠ .linux) (plain : attr.type = aeIfreg)
    (s : CopyState) : ∃ t, FsWriter.writeNewFile env w (some attr) s = (.ok true,t) ∧
      t.hfData = some s.path.data ∧ contents t.log s.path.data = some [] := by
  have file : typeOf (some attr) = aeIfreg := plain
  have notDir : typeOf (some attr) ≠ aeIfdir := by
    rw [file]
    decide
  have accepts : FsWriter.passes (some attr) true true = true := by
    simp [FsWriter.passes,FsWriter.supported,plain]
  let made : CopyState := {Clocked.tick s with log := s.log ++ [.createdFile s.path.data]}
  have created : create env s.path.data (typeOf (some attr) = aeIfdir) s = (.ok (),made) := by
    rw [create,decide_eq_false notDir,if_neg Bool.false_ne_true,
      Program.bindOk (openWorks works _ _ _ s)]
    rfl
  have whole : ∀ a ∈ some attr, a.Whole := by
    intro a same link
    cases same
    exact absurd (link.symm.trans plain) (by decide)
  obtain ⟨_,t,stored⟩ := (writeAttrReturns works w s.path.data whole).ends made
  have quiet := (writeAttrEmits env w s.path.data (some attr)).returned stored
  have kept : contents t.log s.path.data = some [] := by
    rw [quiet.sameContents fun e held kind => ?_]
    · simp [made,contentsMore,contentStep]
    · rcases kind with attr' | ⟨a,same,link,-⟩
      · exact attrKeepsContents _ e held attr'
      · cases same
        rw [plain] at link
        exact absurd link (by decide)
  have finished : finish env s.path.data (typeOf (some attr)) t =
      (.ok (),{t with hfData := some s.path.data}) := by
    rw [finish,if_pos file]
    rfl
  refine ⟨{t with hfData := some s.path.data, log := t.log ++ [.accepted s.path.data]},?_,rfl,?_⟩
  · rw [FsWriter.wslAccepts env wsl accepts,writeFile,Program.bindRun,Program.getRun]
    dsimp only
    rw [Program.bindOk created,Program.bindOk stored,Program.bindOk finished]
    rfl
  · simp [contentsMore,kept,contentStep]

variable {w}

theorem emptyDataRun (wsl : w ≠ .linux) (s : CopyState) :
    FsWriter.writeFileData env w [] s = (.ok (),{s with hfData := none}) := by
  rw [FsWriter.writeFileData,if_neg wsl]
  rfl

theorem openDataRun (works : env.Works) (wsl : w ≠ .linux) {bytes : Bytes} (some' : bytes ≠ [])
    {s : CopyState} {path : Wstr} (opened : s.hfData = some path) :
    FsWriter.writeFileData env w bytes s =
      (.ok (),{Clocked.tick s with log := s.log ++ [.wrote path bytes]}) := by
  have full : ¬ bytes.isEmpty = true := by simpa using some'
  rw [FsWriter.writeFileData,if_neg wsl,writeFileData,if_neg full,Program.bindRun,Program.getRun]
  dsimp only
  rw [FsWriter.writeData,Program.bindRun,Program.getRun,opened]
  dsimp only
  rw [Program.bindOk (callWorks works _ s)]
  rfl

theorem closedDataThrows (wsl : w ≠ .linux) {bytes : Bytes} (some' : bytes ≠ []) {s : CopyState}
    (closed : s.hfData = none) : ∃ e, FsWriter.writeFileData env w bytes s = (.error e,s) := by
  have full : ¬ bytes.isEmpty = true := by simpa using some'
  rw [FsWriter.writeFileData,if_neg wsl,writeFileData,if_neg full,Program.bindRun,Program.getRun]
  dsimp only
  rw [FsWriter.writeData,Program.bindRun,Program.getRun,closed]
  exact ⟨_,rfl⟩

end WslWriter
namespace ArchiveReader
variable {env : FsEnv} {w : Format} {blocks : List ArchiveBlock}

def Delivered (status : ArchiveStatus) : Prop := status = .ok ∨ status = .warn

theorem deliveredRun {status : ArchiveStatus} (delivered : Delivered status) (s : CopyState) :
    Fs.checkArchive status s = (.ok true,s) := by
  rcases delivered with rfl | rfl <;> rfl

theorem readBlock {block : ArchiveBlock} {dataEnd : ArchiveStatus}
    (delivered : Delivered block.status) (s : CopyState) :
    readData env w dataEnd (block :: blocks) s =
      (FsWriter.writeFileData env w block.written >>= fun _ => readData env w dataEnd blocks) s := by
  rw [readData,Program.bindOk (deliveredRun delivered s)]
  rfl

theorem readEnd (wsl : w ≠ .linux) (s : CopyState) :
    readData env w .eof [] s = (.ok (),{s with hfData := none}) := by
  rw [readData]
  exact WslWriter.emptyDataRun wsl s

theorem readClosed (wsl : w ≠ .linux) (delivered : ∀ b ∈ blocks, Delivered b.status)
    {s : CopyState} (closed : s.hfData = none) :
    ((readData env w .eof blocks s).1 = .ok () ↔ ∀ b ∈ blocks, b.written = []) ∧
      (readData env w .eof blocks s).2.log = s.log := by
  induction blocks generalizing s with
  | nil => simp [readEnd wsl]
  | cons block rest ih =>
    rw [readBlock (delivered block (by simp))]
    by_cases empty : block.written = []
    · have later := @ih (fun b mem => delivered b (by simp [mem])) {s with hfData := none} rfl
      rw [empty,Program.bindOk (WslWriter.emptyDataRun wsl s),later.1]
      exact ⟨by simp [empty],later.2⟩
    · obtain ⟨e,throws⟩ := WslWriter.closedDataThrows wsl empty closed
      rw [Program.bindError throws]
      simp [empty]

/- How the loop over the blocks ends in a file that already holds `before`: it takes them all
unless one that holds something comes behind an empty one. -/
structure Left (path : Wstr) (before : Bytes) (blocks : List ArchiveBlock)
    (out : Except Stop Unit × CopyState) : Prop where
  accepted : out.1 = .ok () ↔ blocks.Pairwise fun a b => a.written = [] → b.written = []
  holds : out.1 = .ok () →
    contents out.2.log path = some (before ++ blocks.flatMap ArchiveBlock.written)

theorem readOpened (works : env.Works) (wsl : w ≠ .linux)
    (delivered : ∀ b ∈ blocks, Delivered b.status) {s : CopyState} {path : Wstr} {before : Bytes}
    (opened : s.hfData = some path) (held : contents s.log path = some before) :
    Left path before blocks (readData env w .eof blocks s) := by
  induction blocks generalizing s before with
  | nil =>
    rw [readEnd wsl]
    exact ⟨by simp,fun _ => by simpa using held⟩
  | cons block rest ih =>
    have later (b : ArchiveBlock) (mem : b ∈ rest) : Delivered b.status := delivered b (by simp [mem])
    rw [readBlock (delivered block (by simp))]
    by_cases empty : block.written = []
    · rw [empty,Program.bindOk (WslWriter.emptyDataRun wsl s)]
      have closed := @readClosed env w rest wsl later {s with hfData := none} rfl
      refine ⟨?_,fun fine => ?_⟩
      · rw [closed.1,List.pairwise_cons]
        refine ⟨fun all => ⟨fun b mem _ => all b mem,?_⟩,fun all b mem => all.1 b mem empty⟩
        exact List.pairwise_of_forall_mem_list fun _ _ b mem _ => all b mem
      · have none' : rest.flatMap ArchiveBlock.written = [] :=
          List.flatMap_eq_nil_iff.mpr (closed.1.mp fine)
        rw [closed.2,held,List.flatMap_cons,empty,none',List.append_nil,List.append_nil]
    · rw [Program.bindOk (WslWriter.openDataRun works wsl empty opened)]
      have more : contents (s.log ++ [.wrote path block.written]) path =
          some (before ++ block.written) := by
        simp [contentsMore,contentStep,held]
      obtain ⟨accepted,holds⟩ := @ih later
        {Clocked.tick s with log := s.log ++ [.wrote path block.written]} _ opened more
      refine ⟨accepted.trans ?_,fun fine => ?_⟩
      · simp [List.pairwise_cons,empty]
      · rw [holds fine,List.flatMap_cons,List.append_assoc]

def extents (blocks : List ArchiveBlock) : List (Extent UInt8) :=
  blocks.map fun block => ⟨block.offset,block.bytes⟩

theorem writtenAll {block : ArchiveBlock} (small : block.bytes.length < 0x100000000) :
    block.written = block.bytes := by
  rw [ArchiveBlock.written,Nat.mod_eq_of_lt small,List.take_length]

theorem writtenLength (block : ArchiveBlock) : block.written.length = block.bytes.length % 0x100000000 := by
  rw [ArchiveBlock.written,List.length_take]
  exact Nat.min_eq_left (Nat.mod_le ..)

theorem writtenLong (blocks : List ArchiveBlock) :
    (blocks.flatMap ArchiveBlock.written).length ≤ (Extent.joined (extents blocks)).length ∧
    ((blocks.flatMap ArchiveBlock.written).length = (Extent.joined (extents blocks)).length →
      ∀ b ∈ blocks, b.bytes.length < 0x100000000) := by
  induction blocks with
  | nil => simp [extents,Extent.joined]
  | cons block rest ih =>
    have here := writtenLength block
    have less := Nat.mod_le block.bytes.length 0x100000000
    have small := Nat.mod_lt block.bytes.length (show 0 < 0x100000000 by decide)
    simp only [extents,Extent.joined,List.map_cons,List.flatMap_cons,List.length_append,
      List.forall_mem_cons] at ih ⊢
    exact ⟨by omega,fun same => ⟨by omega,ih.2 (by omega)⟩⟩

structure Contiguous (blocks : List ArchiveBlock) : Prop where
  gapless : Extent.Gapless 0 (extents blocks)
  small : ∀ b ∈ blocks, b.bytes.length < 0x100000000
  emptyLast : blocks.Pairwise fun a b => a.bytes = [] → b.bytes = []

theorem smallWritten (small : ∀ b ∈ blocks, b.bytes.length < 0x100000000) :
    blocks.flatMap ArchiveBlock.written = Extent.joined (extents blocks) := by
  rw [Extent.joined,extents,List.flatMap_map,List.flatMap_def,List.flatMap_def]
  exact congrArg List.flatten (List.map_congr_left fun b mem => writtenAll (small b mem))

theorem leftHolds {path : Wstr} {out : Except Stop Unit × CopyState} (left : Left path [] blocks out)
    (ordered : Extent.Ordered 0 (extents blocks)) :
    (out.1 = .ok () ∧ ∃ text, contents out.2.log path = some text ∧
      Extent.Holds 0 text (extents blocks)) ↔ Contiguous blocks := by
  have emptyLast (small : ∀ b ∈ blocks, b.bytes.length < 0x100000000) :
      (blocks.Pairwise fun a b => a.written = [] → b.written = []) ↔
        blocks.Pairwise fun a b => a.bytes = [] → b.bytes = [] :=
    List.Pairwise.iff_of_mem fun mem mem' => by
      rw [writtenAll (small _ mem),writtenAll (small _ mem')]
  constructor
  · rintro ⟨fine,text,held,holds⟩
    obtain rfl : blocks.flatMap ArchiveBlock.written = text :=
      Option.some.inj ((left.holds fine).symm.trans held)
    have long := holds.finishes
    have all := Extent.longFinish ordered
    have cut := writtenLong blocks
    have small := cut.2 (by omega)
    exact ⟨all.2.mp (by omega),small,(emptyLast small).mp (left.accepted.mp fine)⟩
  · rintro ⟨gapless,small,last⟩
    have fine := left.accepted.mpr ((emptyLast small).mpr last)
    refine ⟨fine,_,left.holds fine,?_⟩
    rw [List.nil_append,smallWritten small]
    exact (Extent.holdsJoined 0 ordered).mpr gapless

/- Extraction of a regular file from any state the run has reached. -/
theorem contentsSurvive (r : ArchiveReader) (works : env.Works) (wsl : w ≠ .linux)
    {e : ArchiveEntry} {name : CStr} {s : CopyState} (pathname : e.pathname = some (.ok name))
    (noLink : e.hardlink = none) (regular : e.mode &&& aeIfmt = aeIfreg)
    (converts : ((r.pathOf name).convert s.path).1 = .ok true)
    (delivered : ∀ b ∈ e.blocks, Delivered b.status) (ends : e.dataEnd = .eof)
    (ordered : Extent.Ordered 0 (extents e.blocks)) :
    ((r.extract env w e s).1 = .ok () ∧ ∃ text,
      contents (r.extract env w e s).2.log ((r.pathOf name).convert s.path).2.data = some text ∧
      Extent.Holds 0 text (extents e.blocks)) ↔ Contiguous e.blocks := by
  let s' : CopyState := {s with path := ((r.pathOf name).convert s.path).2}
  have converted : WslReader.convertPath (r.pathOf name) s = (.ok true,s') := Prod.ext converts rfl
  have named : entryName e.pathname s = (.ok name,s) := by
    rw [pathname]
    rfl
  have plain : readSymlink e s' = (.ok none,s') := by
    rw [readSymlink,if_neg (by rw [regular]; decide)]
    rfl
  obtain ⟨t,stored,opened,held⟩ := @WslWriter.plainFileRun env w (attrOf e none) works wsl
    ((attrOfType e none).trans regular) s'
  have run : r.extract env w e s = readData env w .eof e.blocks t := by
    rw [extract,Program.bindOk named,Program.bindOk converted,if_pos rfl,noLink,storeEntry]
    dsimp only
    rw [Program.bindOk plain,Program.bindOk stored,if_pos rfl,Program.when,if_pos regular,ends]
  rw [run]
  exact leftHolds (readOpened works wsl delivered opened held) ordered

end ArchiveReader

def someName : CStr := ⟨wstr "f",by decide⟩

def fileEntry (pieces : List (Extent UInt8)) : ArchiveEntry :=
  ⟨.ok,some (.ok someName),none,0x81a4,0,0,0,none,⟨0,0⟩,none,0,0,.ok [],
    pieces.map fun e => ⟨.ok,e.items,e.offset⟩,.eof⟩

theorem fileDelivered (pieces : List (Extent UInt8)) :
    ∀ b ∈ (fileEntry pieces).blocks, ArchiveReader.Delivered b.status := by
  intro b mem
  obtain ⟨e,-,rfl⟩ := List.mem_map.mp mem
  exact .inl rfl

def fileArchive : ArchiveReader := ⟨wstr "a.tar",[],[],.eof⟩
def inPieces : ArchiveEntry := fileEntry [⟨0,[1,2]⟩,⟨2,[3]⟩]
def withHole : ArchiveEntry := fileEntry [⟨0,[1]⟩,⟨4,[2]⟩]

theorem contentsSurviveInPieces :
    ((fileArchive.extract plainFs .v2 inPieces (.new .v2 targetBase [])).1 = .ok () ∧ ∃ text,
      contents (fileArchive.extract plainFs .v2 inPieces (.new .v2 targetBase [])).2.log
        ((fileArchive.pathOf someName).convert (Format.v2.fresh targetBase)).2.data = some text ∧
      Extent.Holds 0 text (ArchiveReader.extents inPieces.blocks)) ↔
    ArchiveReader.Contiguous inPieces.blocks :=
  ArchiveReader.contentsSurvive fileArchive plainWorks (by decide) rfl rfl (by decide) rfl
    (fileDelivered _) rfl ⟨Nat.zero_le _,by decide,trivial⟩

theorem holeClosesUp : ¬ ∀ (r : ArchiveReader) (env : FsEnv) (w : Format) (e : ArchiveEntry)
    (name : CStr) (s : CopyState), env.Works → w ≠ .linux → e.pathname = some (.ok name) →
    e.hardlink = none → e.mode &&& aeIfmt = aeIfreg →
    ((r.pathOf name).convert s.path).1 = .ok true →
    (∀ b ∈ e.blocks, ArchiveReader.Delivered b.status) → e.dataEnd = .eof →
    Extent.Ordered 0 (ArchiveReader.extents e.blocks) →
    (r.extract env w e s).1 = .ok () ∧ ∃ text,
      contents (r.extract env w e s).2.log ((r.pathOf name).convert s.path).2.data = some text ∧
      Extent.Holds 0 text (ArchiveReader.extents e.blocks) := by
  intro always
  obtain ⟨-,text,held,holds⟩ := always fileArchive plainFs .v2 withHole someName
    (.new .v2 targetBase []) plainWorks (by decide) rfl rfl (by decide) rfl (fileDelivered _) rfl
    ⟨Nat.zero_le _,by decide,trivial⟩
  have left : contents (fileArchive.extract plainFs .v2 withHole (.new .v2 targetBase [])).2.log
      ((fileArchive.pathOf someName).convert (Format.v2.fresh targetBase)).2.data = some [1,2] := by
    decide +kernel
  obtain rfl : [1,2] = text := Option.some.inj (left.symm.trans held)
  exact absurd (holds.items ⟨4,[2]⟩ (by simp [ArchiveReader.extents,withHole,fileEntry]))
    (by decide)

end LxRunOffline
