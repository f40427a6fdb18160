import LxRunOffline.CommandReads

/-! The commands that change a registered distribution, and what they leave of it. None of them
touches a name; the bit for the second version of WSL lies in the word of flags, which some of them
rewrite, and an imported file is the only one of their arguments that can tell it otherwise. -/
namespace LxRunOffline
open Registry
variable {upcase : WChar → WChar}

inductive Reconfigure where
  | setDefault (name : Wstr)
  | setEnv (name : Wstr) (env : List Wstr)
  | addEnv (name env : Wstr) (force : Bool)
  | removeEnv (name envName : Wstr)
  | setUid (name : Wstr) (uid : UInt32)
  | setKernelCmd (name cmd : Wstr)
  | setFlags (name : Wstr) (flags : UInt32)
  | importConfig (name file : Wstr)
  | move (name dir : Wstr)

namespace Reconfigure

def run (W : World) : Reconfigure → Command upcase Unit
  | setDefault name => Command.setDefault W name
  | setEnv name env => Command.setEnv W name env
  | addEnv name env force => Command.addEnv W name env force
  | removeEnv name envName => Command.removeEnv W name envName
  | setUid name uid => Command.setUid W name uid
  | setKernelCmd name cmd => Command.setKernelCmd W name cmd
  | setFlags name flags => Command.setFlags W name flags
  | importConfig name file => Command.importConfig W name file
  | move name dir => Command.move W name dir

def runAll (W : World) : List Reconfigure → Session upcase → Session upcase
  | [],s => s
  | c :: rest,s => runAll W rest (c.run W s).2

end Reconfigure

def Reg.readWsl2 (env : RegEnv) (name : Wstr) (desired : UInt32) : RegProgram upcase Bool := do
  let conf ← Reg.loadDistro env (.new false) name desired
  pure conf.isWsl2

def wsl2Bit (flags : UInt32) : Bool := flags &&& RegConfig.flagWsl2 != 0

def wsl2Of (values : RegValues) : Option Bool :=
  ((values vnFlags).elim (some (RegConfig.new false).flags) RegValue.asDword).map wsl2Bit

def configItems : List (UInt32 × Wstr × (RegValue → Bool)) :=
  [(configEnv,vnEnv,fun v => v.asMultiSz.isSome),(configUid,vnUid,fun v => v.asDword.isSome),
    (configKernelCmd,vnKernelCmd,fun v => v.asSz.isSome),
    (configFlags,vnFlags,fun v => v.asDword.isSome)]

def RegConfig.items (conf : RegConfig) : List (UInt32 × Wstr × RegValue) :=
  [(configEnv,vnEnv,.multiSz (multiBlock conf.env)),(configUid,vnUid,.dword conf.uid),
    (configKernelCmd,vnKernelCmd,.sz conf.kernelCmd),(configFlags,vnFlags,.dword conf.flags)]

def Typed (desired : UInt32) (values : RegValues) : Prop :=
  ∀ item ∈ configItems, desired &&& item.1 ≠ 0 → ∀ v, values item.2.1 = some v → item.2.2 v = true

structure Kept (old new : RegValues) : Prop where
  name : nameOf new = nameOf old
  bit : ∀ b, wsl2Of old = some b → wsl2Of new = some b
  typed : ∀ desired, Typed desired old → Typed desired new

namespace Kept
variable {old new newer : RegValues}

theorem refl (values : RegValues) : Kept values values := ⟨rfl,fun _ h => h,fun _ h => h⟩

theorem trans (h : Kept old new) (h' : Kept new newer) : Kept old newer :=
  ⟨h'.name.trans h.name,fun b is => h'.bit b (h.bit b is),fun m is => h'.typed m (h.typed m is)⟩

theorem put (h : Kept old new) {name : Wstr} {value : RegValue} (notName : name ≠ vnDistroName)
    (fits : ∀ item ∈ configItems, item.2.1 = name → item.2.2 value = true)
    (bit : name = vnFlags → ∀ b, wsl2Of old = some b → value.asDword.map wsl2Bit = some b) :
    Kept old (Registry.put name (some value) new) where
  name := by
    rw [nameOf,Registry.put,if_neg (Ne.symm notName)]
    exact h.name
  bit b is := by
    by_cases flags : vnFlags = name
    · rw [wsl2Of,Registry.put,if_pos flags]
      exact bit flags.symm b is
    · rw [wsl2Of,Registry.put,if_neg flags]
      exact h.bit b is
  typed desired typed := by
    intro item mem wanted v found
    by_cases here : item.2.1 = name
    · rw [Registry.put,if_pos here,Option.some.injEq] at found
      exact found ▸ fits item mem here
    · rw [Registry.put,if_neg here] at found
      exact h.typed desired typed item mem wanted v found

end Kept

def Alike (r r' : Registry upcase) : Prop := ∃ f : Wstr × RegValues → RegValues,
  r'.distros = (r.distros.map fun d => (d.1,f d)) ∧ ∀ d ∈ r.distros, Kept d.2 (f d)

namespace Alike
variable {r r' r'' : Registry upcase}

theorem refl (r : Registry upcase) : Alike r r := ⟨Prod.snd,by simp,fun d _ => .refl d.2⟩

theorem trans (h : Alike r r') (h' : Alike r' r'') : Alike r r'' := by
  obtain ⟨f,same,kept⟩ := h
  obtain ⟨g,same',kept'⟩ := h'
  refine ⟨fun d => g (d.1,f d),by rw [same',same,List.map_map]; rfl,fun d mem => ?_⟩
  refine (kept d mem).trans (kept' (d.1,f d) ?_)
  rw [same]
  exact List.mem_map_of_mem mem

theorem names (h : Alike r r') :
    (r'.distros.map fun d => nameOf d.2) = r.distros.map fun d => nameOf d.2 := by
  obtain ⟨f,same,kept⟩ := h
  rw [same,List.map_map]
  exact List.map_congr_left fun d mem => (kept d mem).name

theorem named (h : Alike r r') (named : r.Named) : r'.Named := by
  intro d mem
  have listed : nameOf d.2 ∈ r'.distros.map fun d => nameOf d.2 := List.mem_map_of_mem mem
  rw [h.names] at listed
  obtain ⟨e,here,same⟩ := List.mem_map.mp listed
  exact same ▸ named e here

theorem distro (h : Alike r r') {d : Wstr × RegValues} (mem : d ∈ r.distros) :
    ∃ e ∈ r'.distros, Kept d.2 e.2 := by
  obtain ⟨f,same,kept⟩ := h
  exact ⟨(d.1,f d),same ▸ List.mem_map_of_mem mem,kept d mem⟩

end Alike

def Edited (r : Registry upcase) (d : Wstr × RegValues) (is : RegValues → Prop)
    (s : RegState upcase) : Prop := ∃ g, s.reg = r.edit d.1 g ∧ is (g d.2)

namespace Reg
variable {env : RegEnv} {r : Registry upcase} {d : Wstr × RegValues}

theorem editedAlike (mem : d ∈ r.distros) {s : RegState upcase} (h : Edited r d (Kept d.2) s) :
    Alike r s.reg := by
  obtain ⟨g,same,kept⟩ := h
  rw [same]
  refine ⟨_,editedDistros d.1 g,fun e here => ?_⟩
  split
  · rename_i key
    rw [FoldedTable.sameEntry (distroEntry here).1 (distroEntry mem).1 key]
    exact kept
  · exact .refl e.2

theorem setKeyEdited (mem : d ∈ r.distros) {is next : RegValues → Prop} (c : Prop) [Decidable c]
    (name : Wstr) (value : RegValue)
    (step : ∀ v, is v → next (putIf c name value v)) :
    Program.Triple (Edited r d is) (Program.when c (setValue env d.1 name value))
      (fun _ => Edited r d next) (fun _ => Edited r d is) := by
  obtain ⟨entry,guid⟩ := distroEntry mem
  by_cases h : c
  · rw [Program.when,if_pos h]
    rintro s ⟨g,same,now⟩
    have there : s.reg.subkeys.Has d.1 := by
      rw [same]
      exact FoldedTable.hasAlter.mpr ⟨d,entry,rfl⟩
    by_cases zero : env.status s.clock (.setValue (regBasePath ++ d.1) name) = 0
    · rw [setValueDone value zero]
      refine ⟨fun v => putIf c name value (g v),?_,step _ now⟩
      have whole : putIf c name value = put name (some value) := by
        funext v
        rw [putIf,if_pos h]
      rw [whole]
      change s.reg.write d.1 name value = _
      rw [write,if_neg (guidNonempty guid),FoldedTable.insertThere there,same]
      simp only [edit,FoldedTable.alterAlter]
    · simp only [setValue,Program.bindRun,askRun,if_pos zero]
      exact ⟨g,same,now⟩
  · rw [Program.when,if_neg h]
    rintro s ⟨g,same,now⟩
    have still := step _ now
    rw [putIf,if_neg h] at still
    exact ⟨g,same,still⟩

theorem unedited (r : Registry upcase) {d : Wstr × RegValues} {s : RegState upcase} (same : s.reg = r)
    {is : RegValues → Prop} (now : is d.2) : Edited r d is s :=
  ⟨fun v => v,by rw [same,edit,FoldedTable.alterId],now⟩

theorem configureEdited (conf : RegConfig) (name : Wstr) (desired : UInt32)
    {is : RegValues → RegValues → Prop} (refl : ∀ v, is v v)
    (step : ∀ d ∈ r.distros, nameOf d.2 = some name → ∀ item ∈ conf.items, desired &&& item.1 ≠ 0 →
      ∀ v, is d.2 v → is d.2 (put item.2.1 (some item.2.2) v)) :
    Program.Triple (fun s => s.reg = r) (configureDistro env conf name desired)
      (fun _ s => ∃ d ∈ r.distros, Edited r d (is d.2) s)
      (fun _ s => s.reg = r ∨ ∃ d ∈ r.distros, Edited r d (is d.2) s) := by
  refine Program.Triple.bind ((getDistroIdFinds name).weaken (fun _ h => h) (fun _ _ h => h)
    fun _ _ same => .inl same) fun id => ?_
  rintro s ⟨same,d,mem,rfl,named⟩
  have writes (item : UInt32 × Wstr × RegValue) (listed : item ∈ conf.items) :
      Program.Triple (Edited r d (is d.2)) (Program.when (desired &&& item.1 ≠ 0)
        (setValue env d.1 item.2.1 item.2.2)) (fun _ => Edited r d (is d.2))
        (fun _ => Edited r d (is d.2)) := by
    refine setKeyEdited mem _ _ _ fun v now => ?_
    rw [putIf]
    split
    · exact step d mem named item listed (by assumption) v now
    · exact now
  have envs : Program.Triple (Edited r d (is d.2)) (Program.when (desired &&& configEnv ≠ 0)
      (setMultiSz env d.1 vnEnv conf.env)) (fun _ => Edited r d (is d.2))
      (fun _ => Edited r d (is d.2)) := by
    by_cases fits : MultiFits conf.env
    · rw [setMultiSzWhen fun _ => fits]
      exact writes (configEnv,vnEnv,_) (by simp [RegConfig.items])
    · rw [setMultiSz,if_neg fits]
      exact Program.Triple.ite (fun _ _ h => h) fun _ _ h => h
  have stores : Program.Triple (Edited r d (is d.2)) (do
      Program.when (desired &&& configEnv ≠ 0) (setMultiSz env d.1 vnEnv conf.env)
      Program.when (desired &&& configUid ≠ 0) (setDword env d.1 vnUid conf.uid)
      Program.when (desired &&& configKernelCmd ≠ 0) (setSz env d.1 vnKernelCmd conf.kernelCmd)
      Program.when (desired &&& configFlags ≠ 0) (setDword env d.1 vnFlags conf.flags))
      (fun _ => Edited r d (is d.2)) (fun _ => Edited r d (is d.2)) :=
    Program.Triple.bind envs fun _ =>
      Program.Triple.bind (writes (configUid,vnUid,_) (by simp [RegConfig.items])) fun _ =>
      Program.Triple.bind (writes (configKernelCmd,vnKernelCmd,_) (by simp [RegConfig.items])) fun _ =>
      writes (configFlags,vnFlags,_) (by simp [RegConfig.items])
  exact stores.weaken (fun _ h => h) (fun _ _ h => ⟨d,mem,h⟩) (fun _ _ h => .inr ⟨d,mem,h⟩) s
    (unedited r same (refl d.2))

theorem configureAlike (conf : RegConfig) (name : Wstr) (desired : UInt32)
    (bit : desired &&& configFlags ≠ 0 → ∀ d ∈ r.distros, nameOf d.2 = some name →
      ∀ b, wsl2Of d.2 = some b → conf.isWsl2 = b) :
    Program.Triple (fun s => s.reg = r) (configureDistro env conf name desired)
      (fun _ s => Alike r s.reg) (fun _ s => Alike r s.reg) := by
  have notName : ∀ item ∈ conf.items, item.2.1 ≠ vnDistroName := by
    have apart : vnEnv ≠ vnDistroName ∧ vnUid ≠ vnDistroName ∧ vnKernelCmd ≠ vnDistroName ∧
      vnFlags ≠ vnDistroName := by decide
    simp [RegConfig.items,apart]
  have apart : vnEnv ≠ vnUid ∧ vnEnv ≠ vnKernelCmd ∧ vnEnv ≠ vnFlags ∧ vnUid ≠ vnKernelCmd ∧
    vnUid ≠ vnFlags ∧ vnKernelCmd ≠ vnFlags := by decide
  have fits : ∀ item ∈ conf.items, ∀ i ∈ configItems, i.2.1 = item.2.1 → i.2.2 item.2.2 = true := by
    simp [RegConfig.items,configItems,RegValue.asMultiSz,RegValue.asDword,RegValue.asSz,apart,
      Ne.symm apart.1,Ne.symm apart.2.1,Ne.symm apart.2.2.1,Ne.symm apart.2.2.2.1,
      Ne.symm apart.2.2.2.2.1,Ne.symm apart.2.2.2.2.2]
  have flags : ∀ item ∈ conf.items, item.2.1 = vnFlags →
      item = (configFlags,vnFlags,.dword conf.flags) := by
    simp [RegConfig.items,apart]
  refine (configureEdited conf name desired Kept.refl
    fun d mem named item listed wanted v kept => ?_).weaken (fun _ h => h) (fun _ s h => ?_)
    fun _ s h => ?_
  · refine kept.put (notName item listed) (fits item listed) fun here b is => ?_
    rw [flags item listed here] at wanted ⊢
    exact congrArg some (bit wanted d mem named b is)
  · obtain ⟨d,mem,h⟩ := h
    exact editedAlike mem h
  · rcases h with same | ⟨d,mem,h⟩
    · exact same ▸ .refl _
    · exact editedAlike mem h

theorem setDirAlike (name path : Wstr) :
    Program.Triple (fun s => s.reg = r) (setDistroDir env name path)
      (fun _ s => Alike r s.reg) (fun _ s => Alike r s.reg) := by
  have failing {α : Type} {x : RegProgram upcase α} {right : α → Prop} (h : Finds r x right) :
      Program.Triple (fun s => s.reg = r) x (fun a s => s.reg = r ∧ right a)
        (fun _ s => Alike r s.reg) := h.weaken (fun _ h => h) (fun _ _ h => h)
    fun _ s same => same ▸ .refl _
  have resolved : Finds r (getFullPath env path) fun _ => True :=
    .bind (.asked _) fun full _ => match full with
      | .error _ => .raise _
      | .ok _ => .pure trivial
  refine Program.Triple.bind (failing (getDistroIdFinds name)) fun id => ?_
  rintro s ⟨same,d,mem,rfl,named⟩
  refine Program.Triple.bind (failing resolved) (fun full => ?_) s same
  rintro t ⟨same,-⟩
  have notName : vnDir ≠ vnDistroName := by decide
  have notItem : ∀ i ∈ configItems, i.2.1 ≠ vnDir := by decide
  have notFlags : vnDir ≠ vnFlags := by decide
  have written := @setKeyEdited _ env r d mem (Kept d.2) (Kept d.2) True _ vnDir (.sz full)
    fun v kept => by
      rw [putIf,if_pos trivial]
      exact kept.put notName (fun i mem same => absurd same (notItem i mem))
        fun same => absurd same notFlags
  exact (written.weaken (fun _ h => h) (fun _ _ h => editedAlike mem h) fun _ _ h =>
    editedAlike mem h) t (unedited r same (.refl d.2))

theorem setDefaultAlike (name : Wstr) :
    Program.Triple (fun s => s.reg = r) (setDefaultDistro env name)
      (fun _ s => Alike r s.reg) (fun _ s => Alike r s.reg) := by
  refine Program.Triple.bind ((getDistroIdFinds name).weaken (fun _ h => h) (fun _ _ h => h)
    fun _ s same => same ▸ .refl _) fun id => ?_
  rintro s ⟨same,-⟩
  by_cases zero : env.status s.clock (.setValue (regBasePath ++ []) vnDefaultDistro) = 0
  · rw [setSz,setValueDone _ zero]
    exact same ▸ Alike.refl s.reg
  · simp only [setSz,setValue,Program.bindRun,askRun,if_pos zero]
    exact same ▸ Alike.refl s.reg

end Reg
namespace RegConfig

theorem setFlagsWsl2 {conf conf' : RegConfig} {value : UInt32} (h : conf.setFlags value = .ok conf') :
    conf'.isWsl2 = conf.isWsl2 := by
  rw [setFlags] at h
  split at h
  · cases h
  · cases Except.ok.inj h
    have bits : ((conf.flags &&& flagWsl2) ||| (value &&& flagsMask)) &&& flagWsl2 =
        conf.flags &&& flagWsl2 := by
      have apart : flagsMask &&& flagWsl2 = 0 := by decide
      rw [← UInt32.toBitVec_inj,UInt32.toBitVec_and,UInt32.toBitVec_or,BitVec.and_or_distrib_right,
        ← UInt32.toBitVec_and,← UInt32.toBitVec_and,UInt32.and_assoc,UInt32.and_assoc,apart]
      simp
    simp only [isWsl2,bits]

end RegConfig

theorem loadedWsl2 {values : RegValues} {desired : UInt32} {got : RegConfig}
    (flags : desired &&& configFlags ≠ 0) (h : Loaded (.new false) values desired got) :
    wsl2Of values = some got.isWsl2 := by
  have stored := h.flags
  rw [if_pos flags] at stored
  rcases stored with ⟨absent,same⟩ | ⟨v,is,same⟩
  · rw [wsl2Of,absent,RegConfig.isWsl2,same]
    rfl
  · rw [wsl2Of,is,Option.elim_some,same]
    rfl

namespace Command
variable {α β : Type} {r : Registry upcase}

def Gentle (x : Command upcase α) : Prop :=
  ∀ r : Registry upcase, Program.Keeps (fun s => Alike r s.reg.reg) x

namespace Gentle
variable {x : Command upcase α} {f : α → Command upcase β}

theorem bind (hx : Gentle x) (hf : ∀ a, Gentle (f a)) : Gentle (x >>= f) :=
  fun r => Program.Triple.bind (hx r) fun a => hf a r

theorem ofIdle (h : Idle x) : Gentle x := fun r => Program.Leaves.keeps h (Alike r)

theorem ite {c : Prop} [Decidable c] {y : Command upcase α} (hx : Gentle x) (hy : Gentle y) :
    Gentle (if c then x else y) := fun r => Program.Triple.ite (fun _ => hx r) fun _ => hy r

theorem onReg {y : RegProgram upcase α} (h : ∀ r : Registry upcase, Program.Triple
    (fun s => s.reg = r) y (fun _ s => Alike r s.reg) (fun _ s => Alike r s.reg)) :
    Gentle (Command.onReg y) := by
  refine fun r => Program.Keeps.ofFinal fun s alike => alike.trans ?_
  exact Program.endsBoth.mp (h s.reg.reg s.reg rfl)

end Gentle

variable (W : World)

theorem moveGentle (name dir : Wstr) : Gentle (move W name dir : Command upcase Unit) := by
  have last : Gentle (onReg (Reg.setDistroDir W.reg name dir) : Command upcase Unit) :=
    .onReg fun r => Reg.setDirAlike name dir
  have copied (source : Wstr) : Idle (do
      let version ← onReg (Reg.getDistroVersion W.reg name)
      moveByCopy W version source dir : Command upcase Unit) :=
    .bind (.reads (Reg.getDistroVersionReads name)) fun version =>
      moveByCopyIdle W version source dir
  refine .bind (.ofIdle (checkRunningIdle W name)) fun _ =>
    .bind (.ofIdle (.reads (Reg.getDistroDirReads name))) fun source =>
      .bind (.ofIdle (.ask _)) fun moved => .ite last ?_
  rw [← Program.bindAssoc]
  exact .bind (.ofIdle (copied source)) fun _ => last

theorem configureGentle (conf : RegConfig) (name : Wstr) {desired : UInt32}
    (off : desired &&& configFlags = 0) :
    Gentle (onReg (Reg.configureDistro W.reg conf name desired) : Command upcase Unit) :=
  .onReg fun _ => Reg.configureAlike conf name desired fun on => absurd off on

theorem addEnvGentle (name env : Wstr) (force : Bool) :
    Gentle (addEnv W name env force : Command upcase Unit) := by
  rw [addEnv]
  split
  · exact .ofIdle (.raise _)
  · refine .bind (.ofIdle (.reads (Reg.loadDistroReads _ name configEnv))) fun conf => ?_
    dsimp only
    split
    · exact configureGentle W _ name (by decide)
    · exact .ite (configureGentle W _ name (by decide)) (.ofIdle (.raise _))

theorem removeEnvGentle (name envName : Wstr) :
    Gentle (removeEnv W name envName : Command upcase Unit) :=
  .bind (.ofIdle (.reads (Reg.loadDistroReads _ name configEnv))) fun _ =>
    .ite (configureGentle W _ name (by decide)) (.ofIdle (.raise _))

theorem setFlagsAlike {W : World} (honest : W.reg.Honest)
    (distinct : (r.distros.map fun d => nameOf d.2).Nodup) (name : Wstr) (flags : UInt32) :
    Program.Triple (fun s => s.reg.reg = r) (setFlags W name flags)
      (fun _ s => Alike r s.reg.reg) (fun _ s => Alike r s.reg.reg) := by
  have loaded := @onRegFinds _ _ r _ _ (Reg.loadDistroFinds honest (.new false) name configFlags)
  refine Program.Triple.bind (loaded.weaken (fun _ h => h) (fun _ _ h => h)
    fun _ s same => same ▸ .refl _) fun conf => ?_
  rintro s ⟨same,d,mem,named,got⟩
  cases set : conf.setFlags flags with
  | error e => exact same ▸ Alike.refl s.reg.reg
  | ok conf' =>
    refine onRegTriple (@Reg.configureAlike _ _ r conf' name configFlags
      fun _ e here named' b is => ?_) s same
    have one : e = d := List.inj_on_of_nodup_map distinct here mem (named'.trans named.symm)
    rw [one,loadedWsl2 (by decide) got] at is
    rw [RegConfig.setFlagsWsl2 set]
    exact Option.some.inj is

end Command
namespace Reconfigure

/- A file that is imported must say of the bit what is stored; one that does not load says nothing. -/
def Matches (W : World) (s : Session upcase) : Reconfigure → Prop
  | importConfig name file => ∀ conf,
    (RegConfig.new false).loadFile file (W.config s.copy.clock file) = .ok conf →
    ∀ d ∈ s.reg.reg.distros, nameOf d.2 = some name → ∀ b, wsl2Of d.2 = some b → conf.isWsl2 = b
  | _ => True

def AllMatch (W : World) : List Reconfigure → Session upcase → Prop
  | [],_ => True
  | c :: rest,s => c.Matches W s ∧ AllMatch W rest (c.run W s).2

variable {W : World} {r : Registry upcase}

theorem importConfigAlike {s : Session upcase} {name file : Wstr}
    (matches' : (importConfig name file).Matches W s) :
    Alike s.reg.reg ((importConfig name file).run W s).2.reg.reg := by
  cases loads : (RegConfig.new false).loadFile file (W.config s.copy.clock file) with
  | error e =>
    have failed : Command.loadFile W (.new false) file s = (.error (.lro e),Clocked.tick s) := by
      simp only [Command.loadFile,Program.bindRun,Fs.ask,Clocked.clock,loads,Program.raiseRun]
    rw [run,Command.importConfig,Program.bindError failed]
    exact .refl _
  | ok conf =>
    have loaded : Command.loadFile W (.new false) file s = (.ok conf,Clocked.tick s) := by
      simp only [Command.loadFile,Program.bindRun,Fs.ask,Clocked.clock,loads,Program.pureRun]
    rw [run,Command.importConfig,Program.bindOk loaded]
    exact Program.endsBoth.mp (Command.onRegTriple (Reg.configureAlike conf name configAll
      fun _ => matches' conf loads) (Clocked.tick s) rfl)

theorem stepAlike (honest : W.reg.Honest) {s : Session upcase}
    (distinct : (s.reg.reg.distros.map fun d => nameOf d.2).Nodup) {c : Reconfigure}
    (matches' : c.Matches W s) : Alike s.reg.reg (c.run W s).2.reg.reg := by
  have gentle {x : Command upcase Unit} (h : Command.Gentle x) : Alike s.reg.reg (x s).2.reg.reg :=
    (h s.reg.reg).final (.refl _)
  cases c with
  | setDefault name => exact gentle (.onReg fun _ => Reg.setDefaultAlike name)
  | setEnv name env => exact gentle (Command.configureGentle W _ name (by decide))
  | addEnv name env force => exact gentle (Command.addEnvGentle W name env force)
  | removeEnv name envName => exact gentle (Command.removeEnvGentle W name envName)
  | setUid name uid => exact gentle (Command.configureGentle W _ name (by decide))
  | setKernelCmd name cmd => exact gentle (Command.configureGentle W _ name (by decide))
  | setFlags name flags =>
    exact Program.endsBoth.mp (Command.setFlagsAlike honest distinct name flags s rfl)
  | importConfig name file => exact importConfigAlike matches'
  | move name dir => exact gentle (Command.moveGentle W name dir)

theorem runAlike (honest : W.reg.Honest) {cmds : List Reconfigure} {s : Session upcase}
    (distinct : (s.reg.reg.distros.map fun d => nameOf d.2).Nodup) (allMatch : AllMatch W cmds s) :
    Alike s.reg.reg (runAll W cmds s).reg.reg := by
  induction cmds generalizing s with
  | nil => exact .refl _
  | cons c rest ih =>
    have step := stepAlike honest distinct allMatch.1
    exact step.trans (ih (step.names ▸ distinct) allMatch.2)

end Reconfigure
theorem loadedTyped {conf got : RegConfig} {values : RegValues} {desired : UInt32}
    (h : Loaded conf values desired got) : Typed desired values := by
  have fits {α : Type} {pick : RegValue → Option α} {value a : α} {item : Option RegValue}
      (stored : Reg.Stored pick value item a) : ∀ v, item = some v → (pick v).isSome = true := by
    intro v is
    rcases stored with ⟨absent,-⟩ | ⟨v',is',some'⟩
    · rw [absent] at is
      contradiction
    · rw [is'] at is
      cases Option.some.inj is
      exact some' ▸ rfl
  intro item mem wanted
  simp only [configItems,List.mem_cons,List.not_mem_nil,or_false] at mem
  rcases mem with rfl | rfl | rfl | rfl
  · have stored := h.env
    rw [if_pos wanted] at stored
    exact fits stored
  · have stored := h.uid
    rw [if_pos wanted] at stored
    exact fits stored
  · have stored := h.kernelCmd
    rw [if_pos wanted] at stored
    exact fits stored
  · have stored := h.flags
    rw [if_pos wanted] at stored
    exact fits stored

namespace Reg
variable {env : RegEnv} {r : Registry upcase}

theorem readWsl2Finds (honest : env.Honest) (name : Wstr) {desired : UInt32}
    (flags : desired &&& configFlags ≠ 0) : Finds r (readWsl2 env name desired) fun b =>
      ∃ d ∈ r.distros, nameOf d.2 = some name ∧ wsl2Of d.2 = some b ∧ Typed desired d.2 :=
  .bind (loadDistroFinds honest (.new false) name desired) fun _ ⟨d,mem,named,got⟩ =>
    .pure ⟨d,mem,named,loadedWsl2 flags got,loadedTyped got⟩

theorem loadItemReturns {α : Type} (works : env.Works) {wanted : Prop} [Decidable wanted]
    {pick : RegValue → Option α} {sub name : Wstr} {s : RegState upcase} (value : α)
    (fits : wanted → ∀ v, s.reg.read sub name = some v → (pick v).isSome = true) :
    ∃ a calls, loadItem env wanted pick sub name value s = (.ok a,s.after calls) := by
  by_cases yes : wanted
  · rw [loadItem,if_pos yes,tryGetValue,catchLro]
    cases found : s.reg.read sub name with
    | none =>
      refine ⟨value,1,?_⟩
      rw [Program.rescueError (getValueMissing works found)]
      dsimp only
      rw [if_neg (by simp [LroError.fromWin32,LroError.fromHresult])]
      rfl
    | some v =>
      obtain ⟨a,some'⟩ := Option.isSome_iff_exists.mp (fits yes v found)
      exact ⟨a,1,Program.rescueOk (getValueRun works found some')⟩
  · rw [loadItem,if_neg yes]
    exact ⟨value,0,rfl⟩

theorem loadDistroReturns (works : env.Works) {s : RegState upcase} (named : s.reg.Named)
    (conf : RegConfig) {name : Wstr} {desired : UInt32} {d : Wstr × RegValues}
    (mem : d ∈ s.reg.distros) (is : nameOf d.2 = some name) (typed : ∀ e ∈ s.reg.distros,
      nameOf e.2 = some name → Typed desired e.2) :
    ∃ got calls, loadDistro env conf name desired s = (.ok got,s.after calls) := by
  obtain ⟨calls,⟨e,here,named',found⟩ | ⟨absent,-⟩⟩ := @getDistroIdRun _ env s works named name
  · have all := typed e here named'
    have fits {item : UInt32 × Wstr × (RegValue → Bool)} (listed : item ∈ configItems)
        (wanted : desired &&& item.1 ≠ 0) {v : RegValue} {t : RegState upcase} (same : t.reg = s.reg)
        (read : t.reg.read e.1 item.2.1 = some v) : item.2.2 v = true := by
      rw [same,readDistro here rfl] at read
      exact all item listed wanted v read
    obtain ⟨envs,n1,run1⟩ := loadItemReturns works conf.env fun wanted v read =>
      @fits (configEnv,vnEnv,fun v => v.asMultiSz.isSome) (by simp [configItems]) wanted v
        (s.after calls) rfl read
    obtain ⟨uid,n2,run2⟩ := loadItemReturns works conf.uid fun wanted v read =>
      @fits (configUid,vnUid,fun v => v.asDword.isSome) (by simp [configItems]) wanted v
        ((s.after calls).after n1) rfl read
    obtain ⟨cmd,n3,run3⟩ := loadItemReturns works conf.kernelCmd fun wanted v read =>
      @fits (configKernelCmd,vnKernelCmd,fun v => v.asSz.isSome) (by simp [configItems]) wanted v
        (((s.after calls).after n1).after n2) rfl read
    obtain ⟨flags,n4,run4⟩ := loadItemReturns works conf.flags fun wanted v read =>
      @fits (configFlags,vnFlags,fun v => v.asDword.isSome) (by simp [configItems]) wanted v
        ((((s.after calls).after n1).after n2).after n3) rfl read
    refine ⟨⟨envs,cmd,uid,flags⟩,calls+n1+n2+n3+n4,?_⟩
    rw [loadDistro,Program.bindOk found,Program.bindOk run1,Program.bindOk run2,Program.bindOk run3,
      Program.bindOk run4]
    simp only [afterAfter,Program.pureRun]
  · exact absurd is (absent d mem)

end Reg

/- Reading the bit back after any commands whose files match gives what it gave before. -/
theorem wsl2Stays {W : World} (honest : W.reg.Honest) {s : Session upcase}
    (named : s.reg.reg.Named) (distinct : (s.reg.reg.distros.map fun d => nameOf d.2).Nodup)
    {cmds : List Reconfigure} (allMatch : Reconfigure.AllMatch W cmds s) {name : Wstr}
    {desired : UInt32} (flags : desired &&& configFlags ≠ 0) {b : Bool}
    (before : (Reg.readWsl2 W.reg name desired s.reg).1 = .ok b) :
    (∀ b', (Reg.readWsl2 W.reg name desired (Reconfigure.runAll W cmds s).reg).1 = .ok b' → b' = b) ∧
      (W.reg.Works →
        (Reg.readWsl2 W.reg name desired (Reconfigure.runAll W cmds s).reg).1 = .ok b) := by
  have alike := Reconfigure.runAlike honest distinct allMatch
  obtain ⟨-,d,mem,is,bit,typed⟩ := (Reg.readWsl2Finds honest name flags).source rfl
    (Prod.ext before rfl)
  obtain ⟨e,here,kept⟩ := alike.distro mem
  have later := kept.name.trans is
  have one : ∀ e' ∈ (Reconfigure.runAll W cmds s).reg.reg.distros, nameOf e'.2 = some name → e' = e :=
    fun e' mem' is' => List.inj_on_of_nodup_map (alike.names ▸ distinct) mem' here
      (is'.trans later.symm)
  have same : ∀ b', (Reg.readWsl2 W.reg name desired (Reconfigure.runAll W cmds s).reg).1 = .ok b' →
      b' = b := by
    intro b' after
    obtain ⟨-,e',mem',is',bit',-⟩ := (Reg.readWsl2Finds honest name flags).source rfl
      (Prod.ext after rfl)
    rw [one e' mem' is',kept.bit b bit] at bit'
    exact (Option.some.inj bit').symm
  refine ⟨same,fun works => ?_⟩
  obtain ⟨got,calls,loaded⟩ := Reg.loadDistroReturns works (alike.named named) (.new false) here later
    fun e' mem' is' => one e' mem' is' ▸ kept.typed desired typed
  have returns : (Reg.readWsl2 W.reg name desired (Reconfigure.runAll W cmds s).reg).1 =
      .ok got.isWsl2 := by
    rw [Reg.readWsl2,Program.bindOk loaded]
    rfl
  rw [returns,same _ returns]

def plainWorld (root : ConfigElement) : World where
  reg := plainEnv
  fs := plainFs
  config _ _ := .config root
  archive _ _ := ([],.ok)
  tree _ _ := .nil
  volume _ _ := (0,⟨fun _ => none,nofun,nofun⟩)
  moves _ _ _ := true
  eas _ _ _ := none
  shortcut _ := 0
  desktop := []
  reread := plainXml
  opened _ _ := 0
  saved _ _ := none
  wslapi _ := 0
  launched _ := 0
  fuel := 1

def wsl2Ubuntu : RegValues :=
  put vnFlags (some (.dword 15)) (put vnDistroName (some (.sz ubuntu.units)) fun _ => none)
def oneWsl2 : Session asciiUpcase where
  reg := ⟨0,0,⟨fun _ => none,
    FoldedTable.empty.insert (wstr "\x7b00000000-0000-0000-0000-000000000000\x7d") wsl2Ubuntu⟩⟩
  copy := .new .v2 [] []
  removed := []

def bareConfig : ConfigElement := ⟨none,none,none,none⟩

theorem oneWsl2Distros : oneWsl2.reg.reg.distros =
    [(wstr "\x7b00000000-0000-0000-0000-000000000000\x7d",wsl2Ubuntu)] := rfl

theorem oneWsl2Named : oneWsl2.reg.reg.Named := by
  intro d mem
  rw [oneWsl2Distros,List.mem_singleton] at mem
  exact ⟨ubuntu.units,mem ▸ rfl⟩

theorem wsl2StaysUbuntu :
    let W := plainWorld {bareConfig with flags := some (.ok 15)}
    let cmds := [Reconfigure.importConfig ubuntu.units (wstr "u.xml"),.setFlags ubuntu.units 3]
    (∀ b', (Reg.readWsl2 W.reg ubuntu.units configAll
        (Reconfigure.runAll W cmds oneWsl2).reg).1 = .ok b' → b' = true) ∧
      (W.reg.Works → (Reg.readWsl2 W.reg ubuntu.units configAll
        (Reconfigure.runAll W cmds oneWsl2).reg).1 = .ok true) := by
  intro W cmds
  have works : W.reg.Works := fun _ _ => rfl
  have allMatch : Reconfigure.AllMatch W cmds oneWsl2 := by
    refine ⟨fun conf loads d mem named b is => ?_,trivial,trivial⟩
    cases Except.ok.inj loads
    rw [oneWsl2Distros,List.mem_singleton] at mem
    rw [mem] at is
    exact Option.some.inj is
  exact wsl2Stays works.honest oneWsl2Named (by simp [oneWsl2Distros]) allMatch (by decide) rfl

/- A file without the flags stores the flags of a new configuration, which lack the bit. -/
theorem importLosesWsl2 : ¬ ∀ (W : World) (s : Session asciiUpcase) (cmds : List Reconfigure)
    (name : Wstr) (b : Bool), W.reg.Works → s.reg.reg.Named →
    (s.reg.reg.distros.map fun d => nameOf d.2).Nodup →
    (Reg.readWsl2 W.reg name configAll s.reg).1 = .ok b →
    (Reg.readWsl2 W.reg name configAll (Reconfigure.runAll W cmds s).reg).1 = .ok b := by
  intro always
  have kept := always (plainWorld bareConfig) oneWsl2
    [.importConfig ubuntu.units (wstr "u.xml")] ubuntu.units true (fun _ _ => rfl) oneWsl2Named
    (by simp [oneWsl2Distros]) rfl
  have lost : (Reg.readWsl2 plainEnv ubuntu.units configAll (Reconfigure.runAll
      (plainWorld bareConfig) [.importConfig ubuntu.units (wstr "u.xml")] oneWsl2).reg).1 =
      .ok false := by decide +kernel
  have both : (Except.ok true : Except Stop Bool) = .ok false := kept.symm.trans lost
  cases both

end LxRunOffline
