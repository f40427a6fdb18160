import LxRunOffline.Works
import LxRunOffline.Postponed

/-! The directory attributes that `wsl_v2_writer` puts off, said exactly: what a call adds to
the log, and what it leaves on the stack. -/
namespace LxRunOffline

structure FsEnv.Tolerated (env : FsEnv) : Prop where
  status : ∀ time call, env.status time call = 0 ∨
    (∃ path, call = .createDirectory path) ∧ env.status time call = errorAlreadyExists

theorem FsEnv.Works.tolerated {env : FsEnv} (works : env.Works) : env.Tolerated :=
  ⟨fun time call => .inl (works.status time call)⟩

structure Tells (more : List FsEvent) (x : Copy Unit) : Prop where
  run : ∀ s, ∃ clock, x s = (.ok (),{s with clock := clock, log := s.log ++ more})

namespace Tells
variable {env : FsEnv} {a b : List FsEvent} {x y : Copy Unit}

theorem pure : Tells [] (Pure.pure () : Copy Unit) := ⟨fun s => ⟨s.clock,by simp⟩⟩

theorem note (e : FsEvent) : Tells [e] (FsWriter.note e) := ⟨fun s => ⟨s.clock,rfl⟩⟩

theorem bind (hx : Tells a x) (hy : Tells b y) : Tells (a ++ b) (x >>= fun _ => y) := by
  refine ⟨fun s => ?_⟩
  obtain ⟨clock,first⟩ := hx.run s
  obtain ⟨clock',second⟩ := hy.run {s with clock := clock, log := s.log ++ a}
  exact ⟨clock',by rw [Program.bindOk first,second,List.append_assoc]⟩

theorem when {c : Prop} [Decidable c] (h : Tells a x) :
    Tells (if c then a else []) (Program.when c x) := by
  unfold Program.when
  split
  · exact h
  · exact pure

theorem withPath (path : Wstr) (h : Tells a x) : Tells a (Fs.withPath path x) :=
  ⟨fun s => (h.run s).imp fun _ => Program.rescueOk⟩

theorem status (tolerated : env.Tolerated) {c : FsCall} (other : ∀ path, c ≠ .createDirectory path)
    {f : UInt32 → Copy Unit} (h : Tells a (f 0)) : Tells a (Fs.call env c >>= f) := by
  refine ⟨fun s => ?_⟩
  have zero : env.status s.clock c = 0 :=
    (tolerated.status s.clock c).resolve_right fun exists' => exists'.1.elim other
  obtain ⟨clock,run⟩ := h.run (Clocked.tick s)
  refine ⟨clock,?_⟩
  rw [Program.bindRun,Fs.call,Fs.ask]
  dsimp only [Clocked.clock]
  rw [zero,run]
  rfl

theorem openFile (tolerated : env.Tolerated) (path : Wstr) (isDir create : Bool) :
    Tells [] (Fs.openFile env path isDir create) := status tolerated (by simp) pure

theorem setCsInfo (tolerated : env.Tolerated) (path : Wstr) : Tells [] (Fs.setCsInfo env path) :=
  status tolerated (by simp) pure

end Tells
namespace WslV2Writer
open FsWriter

/- What `real_write_attr` stores for a path, as it stands in the log. -/
def stores (path : Wstr) (attr : FileAttr) : List FsEvent :=
  [.ea path .lxuid (.dword attr.uid),.ea path .lxgid (.dword attr.gid),
    .ea path .lxmod (.dword attr.mode)] ++
  (if attr.type = aeIfchr ∨ attr.type = aeIfblk then
    [.ea path .lxdev (.qword ((attr.devMinor.toUInt64 <<< 32) ||| attr.devMajor.toUInt64))]
  else []) ++ ((reparseOf attr).toList.map (.reparse path) ++
  [.times path (timeU2f attr.atime) (timeU2f attr.mtime) (timeU2f attr.ctime)])

def storesAll (entries : List (Wstr × FileAttr)) : List FsEvent :=
  entries.flatMap fun e => stores e.1 e.2

/- The path starts with the one of the directory, which is all that the code asks for. -/
def liesIn (path dir : Wstr) : Prop := dir <+: path

instance : DecidableRel liesIn := fun path dir => inferInstanceAs (Decidable (dir <+: path))

theorem liesInSelf (path : Wstr) : liesIn path path := List.prefix_rfl

theorem liesInTrans (a b c : Wstr) (h : liesIn a b) (h' : liesIn b c) : liesIn a c := h'.trans h

theorem startsWith {path dir : Wstr} : path.take dir.length = dir ↔ liesIn path dir :=
  eq_comm.trans List.prefix_iff_eq_take.symm

variable {env : FsEnv} (tolerated : env.Tolerated)
include tolerated

theorem setEaTells (path : Wstr) (name : EaName) (value : EaValue) :
    Tells [.ea path name value] (setEa env path name value) :=
  .status tolerated (by simp) (.note _)

theorem storeAttrTells (path : Wstr) (attr : FileAttr) :
    Tells (stores path attr) (storeAttr env path attr) := by
  have eas : Tells _ (setEas env path attr) :=
    (setEaTells tolerated path .lxuid _).bind ((setEaTells tolerated path .lxgid _).bind
      ((setEaTells tolerated path .lxmod _).bind (setEaTells tolerated path .lxdev _).when))
  have reparse (data : Option ReparseData) :
      Tells (data.toList.map (.reparse path)) (setReparse env path data) := by
    cases data with
    | none => exact .pure
    | some data => exact .status tolerated (by simp) (.note _)
  have times : Tells [.times path (timeU2f attr.atime) (timeU2f attr.mtime) (timeU2f attr.ctime)]
      (setTimes env path attr) := .status tolerated (by simp) (.note _)
  exact (eas.withPath path).bind ((reparse _).bind times)

theorem poppedTells (dir : Wstr) (attr : FileAttr) :
    Tells (stores dir attr) (do Fs.openFile env dir true false; storeAttr env dir attr) :=
  (Tells.openFile tolerated dir true false).bind (storeAttrTells tolerated dir attr)

theorem flushTells (path : Wstr) (dirs : List (Wstr × FileAttr)) (s : CopyState) :
    ∃ clock, flush env path dirs {s with dirAttr := dirs} = (.ok (),{s with
      clock := clock, log := s.log ++ storesAll (Postponed.outsiders liesIn path dirs),
      dirAttr := Postponed.holders liesIn path dirs}) := by
  induction dirs generalizing s with
  | nil => exact ⟨s.clock,by simp [flush,storesAll,Postponed.outsiders,Postponed.holders]⟩
  | cons top rest ih =>
    obtain ⟨dir,attr⟩ := top
    by_cases held : liesIn path dir
    · refine ⟨s.clock,?_⟩
      simp [flush,startsWith,storesAll,Postponed.outsiders,Postponed.holders,held]
    · obtain ⟨clock,popped⟩ := (poppedTells tolerated dir attr).run {s with dirAttr := rest}
      obtain ⟨clock',run⟩ := ih {s with clock := clock, log := s.log ++ stores dir attr}
      refine ⟨clock',?_⟩
      rw [flush,if_neg (mt startsWith.mp held),Program.bindRun,Program.modifyRun]
      dsimp only
      rw [← Program.bindAssoc,Program.bindOk popped,run]
      simp [storesAll,Postponed.outsiders,Postponed.holders,held]

theorem drainTells (dirs : List (Wstr × FileAttr)) (s : CopyState) :
    ∃ clock, drain env dirs {s with dirAttr := dirs} =
      (.ok (),{s with clock := clock, log := s.log ++ storesAll dirs, dirAttr := []}) := by
  induction dirs generalizing s with
  | nil => exact ⟨s.clock,by simp [drain,storesAll]⟩
  | cons top rest ih =>
    obtain ⟨dir,attr⟩ := top
    obtain ⟨clock,popped⟩ := (poppedTells tolerated dir attr).run {s with dirAttr := rest}
    obtain ⟨clock',run⟩ := ih {s with clock := clock, log := s.log ++ stores dir attr}
    refine ⟨clock',?_⟩
    rw [drain,Program.bindRun,Program.modifyRun]
    dsimp only
    rw [← Program.bindAssoc,Program.bindOk popped,run]
    simp [storesAll]

theorem destroyTells (s : CopyState) : ∃ clock, destroy env s =
    (.ok (),{s with clock := clock, log := s.log ++ storesAll s.dirAttr, dirAttr := []}) := by
  obtain ⟨clock,run⟩ := drainTells tolerated s.dirAttr s
  refine ⟨clock,?_⟩
  rw [destroy,Program.bindRun,Program.getRun]
  exact Program.rescueOk run

def gift (path : Wstr) (attr : FileAttr) : Postponed.Gift Wstr FileAttr :=
  ⟨path,attr,attr.type = aeIfdir⟩

theorem writeAttrTells (path : Wstr) {attr : FileAttr} (whole : attr.Whole) (s : CopyState) :
    ∃ clock, writeAttr env path attr s = (.ok (),{s with
      clock := clock,
      log := s.log ++ storesAll (Postponed.give liesIn ⟨s.dirAttr,[]⟩ (gift path attr)).delivered,
      dirAttr := (Postponed.give liesIn ⟨s.dirAttr,[]⟩ (gift path attr)).waiting}) := by
  by_cases dir : attr.type = aeIfdir
  · obtain ⟨clock,run⟩ := flushTells tolerated path s.dirAttr s
    refine ⟨clock,?_⟩
    rw [writeAttr,if_pos dir,Program.bindRun,Program.getRun]
    dsimp only
    rw [Program.bindOk run,Program.modifyRun]
    simp [Postponed.give,gift,dir]
  · obtain ⟨clock,run⟩ := (storeAttrTells tolerated path attr).run s
    refine ⟨clock,?_⟩
    rw [writeAttr,if_neg dir,realWriteAttrWhole env whole,run]
    simp [Postponed.give,gift,dir,storesAll]

end WslV2Writer
namespace WslWriter
open FsWriter WslV2Writer

def gifts (path : Wstr) (attr : Option FileAttr) : List (Postponed.Gift Wstr FileAttr) :=
  attr.toList.map (gift path)

def CreatedAs (path : Wstr) (isDir : Bool) (made : List FsEvent) : Prop :=
  if isDir then made = [.createdDirectory path] ∨ made = [] else made = [.createdFile path]

variable {env : FsEnv} (tolerated : env.Tolerated)
include tolerated

theorem createDirectoryTells (path : Wstr) (s : CopyState) : ∃ made clock, CreatedAs path true made ∧
    createDirectory env path s = (.ok (),{s with clock := clock, log := s.log ++ made}) := by
  rw [createDirectory,Program.bindRun,Fs.call,Fs.ask]
  dsimp only
  rcases tolerated.status (Clocked.clock s) (.createDirectory path) with zero | ⟨-,there⟩
  · rw [zero,if_pos rfl]
    exact ⟨[.createdDirectory path],(Clocked.tick s).clock,.inl rfl,rfl⟩
  · rw [there,if_neg (by decide),if_pos rfl]
    exact ⟨[],(Clocked.tick s).clock,.inr rfl,by simp [Clocked.tick]⟩

theorem createTells (path : Wstr) (isDir : Bool) (s : CopyState) : ∃ made clock,
    CreatedAs path isDir made ∧
      create env path isDir s = (.ok (),{s with clock := clock, log := s.log ++ made}) := by
  cases isDir with
  | true =>
    obtain ⟨made,clock,fits,created⟩ := createDirectoryTells tolerated path s
    obtain ⟨clock',opened⟩ := (Tells.openFile tolerated path true false).run
      {s with clock := clock, log := s.log ++ made}
    refine ⟨made,clock',fits,?_⟩
    rw [create,if_pos rfl,Program.bindOk created,opened,List.append_nil]
  | false =>
    obtain ⟨clock,run⟩ :=
      ((Tells.openFile tolerated path false true).bind (Tells.note (.createdFile path))).run s
    exact ⟨[.createdFile path],clock,rfl,run⟩

theorem finishTells (path : Wstr) (type : UInt32) (s : CopyState) : ∃ clock hf,
    finish env path type s = (.ok (),{s with clock := clock, hfData := hf}) := by
  unfold finish
  split
  · exact ⟨s.clock,some path,rfl⟩
  · split
    · obtain ⟨clock,run⟩ := ((Tells.setCsInfo tolerated path).withPath path).run s
      exact ⟨clock,s.hfData,by rw [run,List.append_nil]⟩
    · exact ⟨s.clock,s.hfData,rfl⟩

theorem optionalAttrTells (path : Wstr) {attr : Option FileAttr} (whole : ∀ a ∈ attr, a.Whole) (s : CopyState) :
    ∃ clock, writeAttr env .v2 path attr s = (.ok (),{s with
      clock := clock,
      log := s.log ++ storesAll
        (Postponed.giveAll liesIn ⟨s.dirAttr,[]⟩ (gifts path attr)).delivered,
      dirAttr := (Postponed.giveAll liesIn ⟨s.dirAttr,[]⟩ (gifts path attr)).waiting}) := by
  cases attr with
  | none =>
    refine ⟨s.clock,?_⟩
    simp [writeAttr,gifts,Postponed.giveAll,storesAll]
  | some attr => exact writeAttrTells tolerated path (whole attr rfl) s

theorem writeFileTells {attr : Option FileAttr} (whole : ∀ a ∈ attr, a.Whole) (s : CopyState) : ∃ made clock hf,
    CreatedAs s.path.data (typeOf attr = aeIfdir) made ∧ writeFile env .v2 attr s = (.ok true,{s with
      clock := clock, hfData := hf,
      log := s.log ++ made ++ storesAll
        (Postponed.giveAll liesIn ⟨s.dirAttr,[]⟩ (gifts s.path.data attr)).delivered ++
        [.accepted s.path.data],
      dirAttr := (Postponed.giveAll liesIn ⟨s.dirAttr,[]⟩ (gifts s.path.data attr)).waiting}) := by
  obtain ⟨made,clock,fits,created⟩ :=
    createTells tolerated s.path.data (decide (typeOf attr = aeIfdir)) s
  obtain ⟨clock₂,stored⟩ := optionalAttrTells tolerated s.path.data whole
    {s with clock := clock, log := s.log ++ made}
  obtain ⟨clock₃,hf,finished⟩ := finishTells tolerated s.path.data (typeOf attr) _
  refine ⟨made,clock₃,hf,fits,?_⟩
  rw [writeFile,Program.bindRun,Program.getRun]
  dsimp only
  rw [Program.bindOk created,Program.bindOk stored,Program.bindOk finished]
  rfl

end WslWriter
end LxRunOffline
