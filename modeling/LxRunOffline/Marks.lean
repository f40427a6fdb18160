import LxRunOffline.HardLinkRuns
import LxRunOffline.StoredEas

/-! Which paths have been given attributes by the time a writer returns. A v2 writer puts those of
a directory off, so a path counts as soon as they are on its stack. -/
namespace LxRunOffline
open Program (Moves)

def Format.sign (w : Format) : EaName := if w = .v2 then .lxuid else .lxattrb

def Marked (w : Format) (s : CopyState) (path : Wstr) : Prop :=
  (∃ attr, (path,attr) ∈ s.dirAttr) ∨ ∃ value, .ea path w.sign value ∈ s.log

def Fitting (w : Format) : FsEvent → Prop
  | .ea _ name value =>
    if w = .v2 then name = .lxuid → ∃ n, value = .dword n
    else name = .lxattrb ∧ ∃ record, value = .record record
  | _ => True

def FsEvent.isEa : FsEvent → Bool
  | .ea _ _ _ => true
  | _ => false

theorem fittingOther {w : Format} {e : FsEvent} (other : e.isEa = false) : Fitting w e := by
  cases e <;> trivial

structure Unmarked (s t : CopyState) : Prop where
  path : t.path = s.path
  stack : t.dirAttr = s.dirAttr
  log : ∃ more, t.log = s.log ++ more ∧ ∀ e ∈ more, e.isEa = false

namespace Unmarked
variable {s t u : CopyState} {env : FsEnv} {w : Format} {α : Type} {x : Copy α}

theorem silent (path : t.path = s.path) (stack : t.dirAttr = s.dirAttr) (log : t.log = s.log) :
    Unmarked s t := ⟨path,stack,[],by rw [log,List.append_nil],by simp⟩

theorem trans (h : Unmarked s t) (h' : Unmarked t u) : Unmarked s u := by
  obtain ⟨more,log,other⟩ := h.log
  obtain ⟨more',log',other'⟩ := h'.log
  refine ⟨h'.path.trans h.path,h'.stack.trans h.stack,more ++ more',?_,fun e mem => ?_⟩
  · rw [log',log,List.append_assoc]
  · exact (List.mem_append.mp mem).elim (other e) (other' e)

instance : IsPreorder CopyState Unmarked where
  refl _ := silent rfl rfl rfl
  trans _ _ _ := trans

theorem ticked (h : Moves Ticked x) : Moves Unmarked x := by
  refine ⟨fun s => ?_⟩
  obtain ⟨clock,same⟩ := h.final s
  rw [same]
  exact silent rfl rfl rfl

theorem status {c : FsCall} {f : UInt32 → Copy α} (h : ∀ code, Moves Unmarked (f code)) :
    Moves Unmarked (Fs.call env c >>= f) := .bind ⟨fun _ => silent rfl rfl rfl⟩ h

theorem note {e : FsEvent} (other : e.isEa = false) : Moves Unmarked (FsWriter.note e) := by
  refine ⟨fun s => ⟨rfl,rfl,[e],rfl,fun e' mem => ?_⟩⟩
  exact List.mem_singleton.mp mem ▸ other

theorem create (path : Wstr) (isDir : Bool) : Moves Unmarked (WslWriter.create env path isDir) := by
  refine .ite (fun _ => .bind (status fun _ => ?_) fun _ => ticked (openFileTicked ..))
    fun _ => .bind (ticked (openFileTicked ..)) fun _ => note rfl
  exact .ite (fun _ => note rfl) fun _ => .ite (fun _ => .pure ()) fun _ => .raise _

theorem finish (path : Wstr) (type : UInt32) : Moves Unmarked (WslWriter.finish env path type) :=
  .ite (fun _ => ⟨fun _ => silent rfl rfl rfl⟩) fun _ =>
    .ite (fun _ => .withPath path (ticked (setCsInfoTicked path))) fun _ => .pure ()

theorem ignored : Moves Unmarked FsWriter.ignorePath := ⟨fun _ => silent rfl rfl rfl⟩

theorem writeFileData (wsl : w ≠ .linux) (bytes : Bytes) :
    Moves Unmarked (FsWriter.writeFileData env w bytes) := by
  rw [FsWriter.writeFileData,if_neg wsl]
  refine .ite (fun _ => ⟨fun _ => silent rfl rfl rfl⟩) fun _ => .get fun s => .get fun _ => ?_
  cases s.hfData with
  | none => exact .raise _
  | some handle => exact status fun _ => .ite (fun _ => .raise _) fun _ => note rfl

theorem writeHardLink (wsl : w ≠ .linux) : Moves Unmarked (FsWriter.writeHardLink env w) := by
  have checked : Moves Unmarked FsWriter.checkTargetIgnored :=
    .get fun s => .ite (fun _ => .bind ignored fun _ => .pure false) fun _ => .pure true
  have linked : Moves Unmarked (WslWriter.linkFile env) :=
    .get fun s => .bind (note rfl) fun _ => status fun _ => .ite (fun _ => .raise _) fun _ => .pure ()
  rw [FsWriter.writeHardLink,if_neg wsl]
  exact .bind checked fun _ => .ite (fun _ => linked) fun _ => .pure ()

end Unmarked

structure Gains (w : Format) (gained : Wstr → Prop) (s t : CopyState) : Prop where
  log : ∃ more, t.log = s.log ++ more ∧ ∀ e ∈ more, Fitting w e
  stack : w ≠ .v2 → t.dirAttr = s.dirAttr
  marked : ∀ path, Marked w t path ↔ Marked w s path ∨ gained path

namespace Gains
variable {w : Format} {gained gained' : Wstr → Prop} {s t u : CopyState}

theorem trans (h : Gains w gained s t) (h' : Gains w gained' t u) :
    Gains w (fun path => gained path ∨ gained' path) s u := by
  obtain ⟨more,log,fits⟩ := h.log
  obtain ⟨more',log',fits'⟩ := h'.log
  refine ⟨⟨more ++ more',by rw [log',log,List.append_assoc],fun e mem => ?_⟩,fun old => ?_,
    fun path => ?_⟩
  · exact (List.mem_append.mp mem).elim (fits e) (fits' e)
  · exact (h'.stack old).trans (h.stack old)
  · rw [h'.marked,h.marked,or_assoc]

theorem same (h : Gains w gained s t) (iff : ∀ path, gained path ↔ gained' path) :
    Gains w gained' s t := ⟨h.log,h.stack,fun path => by rw [h.marked,iff]⟩

theorem unmarked (h : Unmarked s t) : Gains w (fun _ => False) s t := by
  obtain ⟨more,log,other⟩ := h.log
  refine ⟨⟨more,log,fun e mem => fittingOther (other e mem)⟩,fun _ => h.stack,fun path => ?_⟩
  have none' (value : EaValue) : .ea path w.sign value ∉ more := fun mem => by cases other _ mem
  simp [Marked,h.stack,log,none']

theorem silent {path : FilePath} : Gains w (fun _ => False) s {s with path := path} :=
  ⟨⟨[],by simp,by simp⟩,fun _ => rfl,fun _ => by simp [Marked]⟩

theorem after (h : Unmarked s t) (h' : Gains w gained t u) : Gains w gained s u :=
  ((unmarked h).trans h').same fun _ => by simp

theorem before (h : Gains w gained s t) (h' : Unmarked t u) : Gains w gained s u :=
  (h.trans (unmarked h')).same fun _ => by simp

theorem stored {path : Wstr} {events : List FsEvent} (stack : t.dirAttr = s.dirAttr)
    (log : t.log = s.log ++ events) (fits : ∀ e ∈ events, Fitting w e)
    (signed : ∀ p, (∃ value, .ea p w.sign value ∈ events) ↔ p = path) :
    Gains w (· = path) s t := by
  refine ⟨⟨events,log,fits⟩,fun _ => stack,fun p => ?_⟩
  rw [← signed p,Marked,Marked,stack,log]
  simp only [List.mem_append,exists_or,or_assoc]

end Gains
namespace WslV2Writer
variable {env : FsEnv} {path : Wstr} {attr : FileAttr} {s t : CopyState}

theorem storesSigned (p : Wstr) :
    (∃ value, .ea p Format.v2.sign value ∈ stores path attr) ↔ p = path := by
  refine ⟨fun held => ?_,fun same => ⟨.dword attr.uid,by simp [stores,same,Format.sign]⟩⟩
  obtain ⟨value,mem⟩ := held
  rcases storesEas path attr mem with is | is | is | is | is
  · cases is
    rfl
  · cases is
  · cases is
  · cases is
  · exact absurd rfl (is _ _ _)

theorem storesFitting {e : FsEvent} (mem : e ∈ stores path attr) : Fitting .v2 e := by
  rcases storesEas path attr mem with rfl | rfl | rfl | rfl | is
  · exact fun _ => ⟨_,rfl⟩
  · exact fun no => by cases no
  · exact fun no => by cases no
  · exact fun no => by cases no
  · cases e <;> first | trivial | exact absurd rfl (is _ _ _)

theorem storeAttrGains (run : storeAttr env path attr s = (.ok (),t)) :
    Gains .v2 (· = path) s t ∧ t.dirAttr = s.dirAttr := by
  have stack := ((Filing.storeAttr path env attr).final s).stack
  rw [run] at stack
  have log := (storeAttrAdds env path attr).log s () t run
  exact ⟨.stored stack log (fun _ => storesFitting) storesSigned,stack⟩

theorem poppedGains {dir : Wstr} {rest : List (Wstr × FileAttr)} (top : s.dirAttr = (dir,attr) :: rest)
    (run : (do Fs.openFile env dir true false; storeAttr env dir attr : Copy Unit)
      {s with dirAttr := rest} = (.ok (),t)) :
    Gains .v2 (fun _ => False) s t ∧ t.dirAttr = rest := by
  obtain ⟨_,u,opened,run⟩ := Program.bindOkSource run
  have opens : Moves Unmarked (Fs.openFile env dir true false : Copy Unit) :=
    Unmarked.ticked (openFileTicked ..)
  have open' := opens.final {s with dirAttr := rest}
  rw [opened] at open'
  obtain ⟨gains,stack⟩ := storeAttrGains run
  have both := Gains.after open' gains
  refine ⟨⟨both.log,fun old => absurd rfl old,fun p => ?_⟩,stack.trans open'.stack⟩
  rw [both.marked p]
  simp only [Marked,top,List.mem_cons,Prod.mk.injEq]
  grind

theorem flushGains {dirs : List (Wstr × FileAttr)} (stack : s.dirAttr = dirs)
    (run : flush env path dirs s = (.ok (),t)) : Gains .v2 (fun _ => False) s t := by
  induction dirs generalizing s with
  | nil =>
    cases run
    exact .unmarked (.silent rfl rfl rfl)
  | cons top rest ih =>
    obtain ⟨dir,attr⟩ := top
    rw [flush] at run
    split at run
    · cases run
      exact .unmarked (.silent rfl rfl rfl)
    · rw [Program.bindRun,Program.modifyRun] at run
      dsimp only at run
      rw [← Program.bindAssoc] at run
      obtain ⟨_,u,popped,run⟩ := Program.bindOkSource run
      obtain ⟨gains,left⟩ := poppedGains stack popped
      exact (gains.trans (ih left run)).same fun _ => by simp

theorem drainGains {dirs : List (Wstr × FileAttr)} (stack : s.dirAttr = dirs)
    (run : drain env dirs s = (.ok (),t)) : Gains .v2 (fun _ => False) s t ∧ t.dirAttr = [] := by
  induction dirs generalizing s with
  | nil =>
    cases run
    exact ⟨.unmarked (.silent rfl rfl rfl),stack⟩
  | cons top rest ih =>
    obtain ⟨dir,attr⟩ := top
    rw [drain,Program.bindRun,Program.modifyRun] at run
    dsimp only at run
    rw [← Program.bindAssoc] at run
    obtain ⟨_,u,popped,run⟩ := Program.bindOkSource run
    obtain ⟨gains,left⟩ := poppedGains stack popped
    obtain ⟨more,empty⟩ := ih left run
    exact ⟨(gains.trans more).same fun _ => by simp,empty⟩

theorem writeAttrGains (run : writeAttr env path attr s = (.ok (),t)) : Gains .v2 (· = path) s t := by
  rw [writeAttr] at run
  split at run
  · rw [Program.bindRun,Program.getRun] at run
    obtain ⟨_,u,flushed,run⟩ := Program.bindOkSource run
    have gains := flushGains rfl flushed
    cases run
    refine ⟨gains.log,fun old => absurd rfl old,fun p => ?_⟩
    have before := gains.marked p
    simp only [or_false] at before
    rw [← before]
    simp only [Marked,List.mem_cons,Prod.mk.injEq]
    grind
  · exact (storeAttrGains (realWriteAttrReturned env run)).1

end WslV2Writer
namespace WslV1Writer
variable {env : FsEnv} {w : Format} {path : Wstr} {attr : FileAttr} {s t : CopyState}

theorem writeAttrGains (old : w ≠ .v2) (run : writeAttr env path attr s = (.ok (),t)) :
    Gains w (· = path) s t := by
  have prompt : Prompt .v1 ((some attr).map FileAttr.mode) := fun v2 => by cases v2
  have stack := ((Filing.writeAttr env path prompt).final s).stack
  rw [show WslWriter.writeAttr env .v1 path (some attr) = writeAttr env path attr from rfl,run] at stack
  have log := (writeAttrAdds env path attr).log s () t run
  have only (e : FsEvent) (mem : e ∈ stores path attr) :
      e = .ea path .lxattrb (.record (record attr)) ∨ e.isEa = false := by
    rcases List.mem_cons.mp mem with ea | wrote
    · exact .inl ea
    · split at wrote
      · cases List.mem_singleton.mp wrote
        exact .inr rfl
      · contradiction
  refine .stored stack log (fun e mem => ?_) fun p => ⟨fun held => ?_,fun same => ?_⟩
  · rcases only e mem with rfl | other
    · exact (if_neg old).mpr ⟨rfl,_,rfl⟩
    · exact fittingOther other
  · obtain ⟨value,mem⟩ := held
    rcases only _ mem with is | other
    · exact (FsEvent.ea.inj is).1
    · cases other
  · rw [same,Format.sign,if_neg old]
    exact ⟨_,List.mem_cons_self⟩

end WslV1Writer
namespace WslWriter
variable {env : FsEnv} {w : Format} {attr : FileAttr} {s t : CopyState}

theorem writeFileGains {stored : Bool} (run : writeFile env w (some attr) s = (.ok stored,t)) :
    Gains w (· = s.path.data) s t := by
  obtain ⟨u,v,first,wrote,rest⟩ := writeFileParts (Unmarked.create _ _) (Unmarked.finish _ _)
    (Unmarked.note rfl) run
  have gains : Gains w (· = s.path.data) u v := by
    rw [writeAttr] at wrote
    split at wrote
    · rename_i v2
      exact v2 ▸ WslV2Writer.writeAttrGains wrote
    · rename_i old
      exact WslV1Writer.writeAttrGains old wrote
  exact .after first (gains.before rest)

end WslWriter
namespace FsWriter
variable {env : FsEnv} {w : Format} {attr : FileAttr} {s t : CopyState}

theorem writeNewFileGains (wsl : w ≠ .linux) {stored : Bool}
    (run : writeNewFile env w (some attr) s = (.ok stored,t)) :
    Gains w (fun p => supported attr.type true = true ∧ p = s.path.data) s t := by
  by_cases accepts : passes (some attr) true true = true
  · rw [wslAccepts env wsl accepts] at run
    have accepted : supported attr.type true = true := accepts
    exact (WslWriter.writeFileGains run).same fun p => by simp [accepted]
  · rw [wslRefuses env wsl accepts] at run
    have left : supported attr.type true ≠ true := accepts
    cases run
    have same : Gains w (fun _ => False) s {s with ignored := s.path.data :: s.ignored} :=
      .unmarked (.silent rfl rfl rfl)
    exact same.same fun p => by simp [left]

end FsWriter
end LxRunOffline
