import LxRunOffline.WslReader

/-! The loop that reads a link target in the first layout, as the source has it: a buffer of one
byte more than the size, and an offset of 32 bits that every read moves on. Nothing in it looks at
a read that delivers nothing. -/
namespace LxRunOffline

inductive TargetLoop where
  | running (pos : Nat) (off : UInt32) (buf : Bytes)
  | failed (e : LroError)
  | ended (buf : Bytes)
  | overrun
  deriving DecidableEq, Repr

namespace TargetLoop

def storeAt (buf : Bytes) (off : Nat) (data : Bytes) : Bytes :=
  buf.take off ++ data ++ buf.drop (off+data.length)

variable (path : Wstr) (sz : UInt64) (file : Bytes)

/- A call of `ReadFile` fails with a code, or delivers so many bytes at most. The system may write
to the whole of what it is given. -/
def readPiece (outcome : Except UInt32 Nat) (pos : Nat) (off : UInt32) (buf : Bytes) : TargetLoop :=
  let request := (sz-off.toUInt64).toUInt32
  match outcome with
  | .error code => .failed (.fromWin32 .errReadFile [path] code)
  | .ok count =>
    if buf.length < off.toNat+request.toNat then .overrun else
      let data := ((file.drop pos).take count).take request.toNat
      .running (pos+data.length) (off+data.length.toUInt32) (storeAt buf off.toNat data)

def step (outcome : Except UInt32 Nat) : TargetLoop → TargetLoop
  | .running pos off buf =>
    if off.toUInt64 < sz then readPiece path sz file outcome pos off buf
    else if sz.toNat < buf.length then .ended (buf.set sz.toNat 0)
    else .overrun
  | .failed e => .failed e
  | .ended buf => .ended buf
  | .overrun => .overrun

def start : TargetLoop := .running 0 0 (List.replicate (sz.toNat+1) 0)

def run (outcomes : Nat → Except UInt32 Nat) : Nat → TargetLoop
  | 0 => start sz
  | n+1 => step path sz file (outcomes n) (run outcomes n)

/- The loop is left, by an error or with the target, and it stays in its buffer. -/
structure Reads (outcomes : Nat → Except UInt32 Nat) : Prop where
  ends : (∃ n e, run path sz file outcomes n = .failed e) ∨
    ∃ n, sz.toNat ≤ file.length ∧ run path sz file outcomes n = .ended (file.take sz.toNat ++ [0])
  inside : ∀ n, run path sz file outcomes n ≠ .overrun

end TargetLoop

def offered (outcomes : Nat → Except UInt32 Nat) : Nat → Nat
  | 0 => 0
  | n+1 => offered outcomes n+(outcomes n).toOption.getD 0

namespace TargetLoop
variable {path : Wstr} {sz : UInt64} {file : Bytes}

def holding (sz : UInt64) (target : Bytes) : TargetLoop :=
  .running target.length target.length.toUInt32
    (target ++ List.replicate (sz.toNat+1-target.length) 0)

theorem storeHolding (target : Bytes) (room : Nat) (data : Bytes) :
    storeAt (target ++ List.replicate room (0 : UInt8)) target.length data =
      target ++ data ++ List.replicate (room-data.length) 0 := by
  rw [storeAt,List.take_left',List.drop_append,List.drop_eq_nil_of_le (by omega),List.nil_append,
    Nat.add_sub_cancel_left,List.drop_replicate]
  rfl

section Bounds
variable {target : Bytes} (limit : sz ≤ 65536) (short : target.length ≤ sz.toNat)
include limit short

theorem offsetExact : target.length.toUInt32.toNat = target.length := by
  have bound := UInt64.le_iff_toNat_le.mp limit
  change sz.toNat ≤ 65536 at bound
  simp only [Nat.toUInt32_eq,UInt32.toNat_ofNat']
  omega

theorem offsetWide : target.length.toUInt32.toUInt64.toNat = target.length := by
  rw [UInt32.toNat_toUInt64,offsetExact limit short]

theorem goesOn : target.length.toUInt32.toUInt64 < sz ↔ target.length < sz.toNat := by
  rw [UInt64.lt_iff_toNat_lt,offsetWide limit short]

theorem requestExact :
    (sz-target.length.toUInt32.toUInt64).toUInt32.toNat = sz.toNat-target.length := by
  have bound := UInt64.le_iff_toNat_le.mp limit
  change sz.toNat ≤ 65536 at bound
  have order : target.length.toUInt32.toUInt64 ≤ sz := by
    rw [UInt64.le_iff_toNat_le,offsetWide limit short]
    exact short
  rw [UInt64.toNat_toUInt32,UInt64.toNat_sub_of_le _ _ order,offsetWide limit short]
  omega

theorem stepReads (more : target.length < sz.toNat) (count : Nat) :
    step path sz file (.ok count) (holding sz target) = holding sz (target ++
      ((file.drop target.length).take count).take (sz.toNat-target.length)) := by
  have part := List.length_take_le (sz.toNat-target.length) ((file.drop target.length).take count)
  generalize data : ((file.drop target.length).take count).take (sz.toNat-target.length) = piece at *
  have inside : ¬ (target ++ List.replicate (sz.toNat+1-target.length) (0 : UInt8)).length <
      target.length+(sz.toNat-target.length) := by
    rw [List.length_append,List.length_replicate]
    omega
  have room : sz.toNat+1-target.length-piece.length = sz.toNat+1-(target ++ piece).length := by
    rw [List.length_append]
    omega
  rw [holding,step,if_pos ((goesOn limit short).mpr more)]
  simp only [readPiece,requestExact limit short,offsetExact limit short,if_neg inside,data]
  rw [storeHolding,room,holding,List.length_append,Nat.toUInt32_eq,Nat.toUInt32_eq,Nat.toUInt32_eq,
    UInt32.ofNat_add]

theorem stepFails (more : target.length < sz.toNat) (code : UInt32) :
    step path sz file (.error code) (holding sz target) =
      .failed (.fromWin32 .errReadFile [path] code) := by
  rw [holding,step,if_pos ((goesOn limit short).mpr more)]
  rfl

end Bounds

theorem stepEnds {target : Bytes} (limit : sz ≤ 65536) (whole : target.length = sz.toNat)
    (outcome : Except UInt32 Nat) :
    step path sz file outcome (holding sz target) = .ended (target ++ [0]) := by
  have room : sz.toNat+1-target.length = 1 := by omega
  have done : ¬ target.length < sz.toNat := by omega
  rw [holding,step,if_neg fun more => done ((goesOn limit (Nat.le_of_eq whole)).mp more),room,
    if_pos (by rw [List.length_append,List.length_replicate]; omega),← whole]
  simp

theorem takeOffered (size total count : Nat) : let target := file.take (min size total)
    target.length < size →
    target ++ ((file.drop target.length).take count).take (size-target.length) =
      file.take (min size (total+count)) := by
  intro target more
  have length : target.length = min (min size total) file.length := List.length_take
  rw [List.take_take]
  by_cases short : file.length ≤ min size total
  · have all : target = file := List.take_of_length_le short
    rw [all,List.drop_length,List.take_nil,List.append_nil,List.take_of_length_le (by omega)]
  · have few : min size total = total := by omega
    have exact' : target.length = total := by omega
    have sum : min size (total+count) = total+min (size-total) count := by omega
    have front : target = file.take total := congrArg file.take few
    rw [sum,List.take_add,exact',front]

inductive Reached (path : Wstr) (sz : UInt64) (file : Bytes) (outcomes : Nat → Except UInt32 Nat)
    (n : Nat) : TargetLoop → Prop where
  | running (succeeded : ∀ k < n, ∃ count, outcomes k = .ok count) :
      Reached path sz file outcomes n (holding sz (file.take (min sz.toNat (offered outcomes n))))
  | failed {k : Nat} {code : UInt32} (fails : outcomes k = .error code) :
      Reached path sz file outcomes n (.failed (.fromWin32 .errReadFile [path] code))
  | ended (whole : sz.toNat ≤ file.length) {k : Nat} (enough : sz.toNat ≤ offered outcomes k) :
      Reached path sz file outcomes n (.ended (file.take sz.toNat ++ [0]))

variable {outcomes : Nat → Except UInt32 Nat}

theorem reachedStart : Reached path sz file outcomes 0 (start sz) := by
  have empty : file.take (min sz.toNat (offered outcomes 0)) = [] := by simp [offered]
  have first := @Reached.running path sz file outcomes 0 fun k no => absurd no (Nat.not_lt_zero k)
  rw [empty] at first
  exact first

theorem reachedStep (limit : sz ≤ 65536) {n : Nat} {s : TargetLoop}
    (h : Reached path sz file outcomes n s) :
    Reached path sz file outcomes (n+1) (step path sz file (outcomes n) s) := by
  cases h with
  | failed fails => exact .failed fails
  | ended whole enough => exact .ended whole enough
  | running succeeded =>
    have length : (file.take (min sz.toNat (offered outcomes n))).length =
      min (min sz.toNat (offered outcomes n)) file.length := List.length_take
    have short : (file.take (min sz.toNat (offered outcomes n))).length ≤ sz.toNat := by omega
    by_cases more : (file.take (min sz.toNat (offered outcomes n))).length < sz.toNat
    · cases read : outcomes n with
      | error code =>
        rw [stepFails limit short more]
        exact .failed read
      | ok count =>
        rw [stepReads limit short more,takeOffered _ _ _ more]
        have total : offered outcomes n+count = offered outcomes (n+1) := by
          rw [offered,read]
          rfl
        rw [total]
        refine .running fun k before => ?_
        rcases Nat.lt_succ_iff_lt_or_eq.mp before with before | rfl
        · exact succeeded k before
        · exact ⟨count,read⟩
    · have whole : (file.take (min sz.toNat (offered outcomes n))).length = sz.toNat := by omega
      have all : min sz.toNat (offered outcomes n) = sz.toNat := by omega
      rw [stepEnds limit whole,all]
      exact .ended (by omega) (by omega : sz.toNat ≤ offered outcomes n)

theorem reachedRun (limit : sz ≤ 65536) (path : Wstr) (file : Bytes)
    (outcomes : Nat → Except UInt32 Nat) (n : Nat) :
    Reached path sz file outcomes n (run path sz file outcomes n) := by
  induction n with
  | zero => exact reachedStart
  | succ n ih => exact reachedStep limit ih

theorem shrunkRuns (limit : sz ≤ 65536) (short : file.length < sz.toNat)
    (succeeds : ∀ k, ∃ count, outcomes k = .ok count) (n : Nat) :
    run path sz file outcomes n = holding sz (file.take (min sz.toNat (offered outcomes n))) := by
  have here := reachedRun limit path file outcomes n
  generalize run path sz file outcomes n = s at here
  cases here with
  | running _ => rfl
  | @failed k code fails =>
    obtain ⟨count,ok⟩ := succeeds k
    rw [fails] at ok
    cases ok
  | ended whole _ => omega

end TargetLoop
namespace WslReader
variable {env : FsEnv} {path : Wstr} {sz : UInt64}

def readOutcomes (env : FsEnv) (path : Wstr) (time : Nat) (reads : List Bytes) (k : Nat) :
    Except UInt32 Nat :=
  if k < reads.length ∧ env.status (time+k) (.readFile path) ≠ 0 then
    .error (env.status (time+k) (.readFile path))
  else .ok (reads[k]?.elim 0 List.length)

inductive TargetEnd (sz : UInt64) (run : Nat → TargetLoop) : Except Stop Bytes → Prop where
  | ended {n : Nat} {target : Bytes} (is : run n = .ended (target ++ [0])) : TargetEnd sz run (.ok target)
  | failed {n : Nat} {e : LroError} (is : run n = .failed e) : TargetEnd sz run (.error (.lro e))
  | forever {k : Nat} {target : Bytes} (is : ∀ n, run (k+n) = TargetLoop.holding sz target) :
      TargetEnd sz run (.error .outOfFuel)

theorem readTargetEnd (limit : sz ≤ 65536) {file : Bytes} {outcomes : Nat → Except UInt32 Nat}
    {k : Nat} {target : Bytes} (rest : List Bytes) (s : CopyState) (short : target.length ≤ sz.toNat)
    (holds : TargetLoop.run path sz file outcomes k = TargetLoop.holding sz target)
    (left : target.length < sz.toNat → file.drop target.length = rest.flatten)
    (these : ∀ i, outcomes (k+i) = readOutcomes env path (Clocked.clock s) rest i) :
    TargetEnd sz (TargetLoop.run path sz file outcomes) (readTarget env path sz.toNat target rest s).1 := by
  -- By induction on the pieces that are left, while the loop holds what the reader has put
  -- together.
  have ends (whole : sz.toNat ≤ target.length) :
      TargetLoop.run path sz file outcomes (k+1) = .ended (target ++ [0]) := by
    rw [TargetLoop.run,holds,TargetLoop.stepEnds limit (Nat.le_antisymm short whole)]
  induction rest generalizing k target s with
  | nil =>
    by_cases whole : sz.toNat ≤ target.length
    · rw [readTarget,if_pos whole]
      exact .ended (ends whole)
    · rw [readTarget,if_neg whole]
      refine @TargetEnd.forever sz _ k target fun n => ?_
      induction n with
      | zero => exact holds
      | succ n ih =>
        have more : target.length < sz.toNat := by omega
        have nothing := these n
        simp only [readOutcomes,List.length_nil,Nat.not_lt_zero,false_and,if_false,
          List.getElem?_nil,Option.elim_none] at nothing
        rw [← Nat.add_assoc,TargetLoop.run,ih,nothing,TargetLoop.stepReads limit short more]
        simp
  | cons piece rest ih =>
    by_cases whole : sz.toNat ≤ target.length
    · rw [readTarget,if_pos whole]
      exact .ended (ends whole)
    · have more : target.length < sz.toNat := by omega
      have called : Fs.call env (.readFile path) s =
        (.ok (env.status (Clocked.clock s) (.readFile path)),Clocked.tick s) := rfl
      have first := these 0
      simp only [readOutcomes,Nat.add_zero,List.length_cons,Nat.zero_lt_succ,true_and,
        List.getElem?_cons_zero,Option.elim_some] at first
      rw [readTarget,if_neg whole,Program.bindOk called]
      by_cases code : env.status (Clocked.clock s) (.readFile path) ≠ 0
      · rw [if_pos code]
        rw [if_pos code] at first
        refine @TargetEnd.failed sz _ (k+1) _ ?_
        rw [TargetLoop.run,holds,first,TargetLoop.stepFails limit short more]
      · rw [if_neg code]
        rw [if_neg code] at first
        have text := left more
        rw [List.flatten_cons] at text
        -- the piece is all that the handle has up to its end
        have next : TargetLoop.run path sz file outcomes (k+1) =
            TargetLoop.holding sz (target ++ piece.take (sz.toNat-target.length)) := by
          rw [TargetLoop.run,holds,first,TargetLoop.stepReads limit short more,text,List.take_left' rfl]
        have length := List.length_take (i := sz.toNat-target.length) (l := piece)
        have within : (target ++ piece.take (sz.toNat-target.length)).length ≤ sz.toNat := by
          rw [List.length_append]
          omega
        have later (i : Nat) : outcomes (k+1+i) =
            readOutcomes env path (Clocked.clock (Clocked.tick s)) rest i := by
          have clock : Clocked.clock s+(i+1) = Clocked.clock (Clocked.tick s)+i := by
            change s.clock+(i+1) = s.clock+1+i
            omega
          rw [Nat.add_assoc,Nat.add_comm 1,these (i+1),readOutcomes,readOutcomes,clock]
          simp
        refine ih (Clocked.tick s) within next (fun still => ?_) later fun done => ?_
        · have entire : (piece.take (sz.toNat-target.length)).length = piece.length := by
            rw [List.length_append] at still
            omega
          rw [List.length_append,entire,← List.drop_drop,text,List.drop_left' rfl]
        · rw [TargetLoop.run,next,TargetLoop.stepEnds limit (Nat.le_antisymm within done)]

theorem readTargetLoop (limit : sz ≤ 65536) (reads : List Bytes) (s : CopyState) :
    TargetEnd sz (TargetLoop.run path sz reads.flatten (readOutcomes env path (Clocked.clock s) reads))
      (readTarget env path sz.toNat [] reads s).1 :=
  readTargetEnd limit reads s (Nat.zero_le _) rfl (fun _ => rfl) fun i => by rw [Nat.zero_add]

end WslReader

/- The loop ends when a read fails, or when the file has the reported size and the reads deliver
it. By the invariant it goes on only while all reads succeed and bytes are missing. -/
theorem targetReadsEnd {sz : UInt64} (limit : sz ≤ 65536) (path : Wstr) (file : Bytes)
    (outcomes : Nat → Except UInt32 Nat) : TargetLoop.Reads path sz file outcomes ↔
      (∃ k code, outcomes k = .error code) ∨
        sz.toNat ≤ file.length ∧ ∃ n, sz.toNat ≤ offered outcomes n := by
  have at' := TargetLoop.reachedRun limit path file outcomes
  constructor
  · rintro ⟨⟨n,e,run⟩ | ⟨n,whole,run⟩,-⟩
    · have here := at' n
      rw [run] at here
      cases here with
      | failed fails => exact .inl ⟨_,_,fails⟩
    · have here := at' n
      rw [run] at here
      generalize file.take sz.toNat ++ [0] = buf at here
      cases here with
      | ended whole enough => exact .inr ⟨whole,_,enough⟩
  · intro condition
    refine ⟨?_,fun n no => by have here := at' n; rw [no] at here; cases here⟩
    rcases condition with ⟨k,code,fails⟩ | ⟨whole,n,enough⟩
    · have here := at' (k+1)
      generalize state : TargetLoop.run path sz file outcomes (k+1) = s at here
      cases here with
      | running succeeded =>
        obtain ⟨count,ok⟩ := succeeded k (Nat.lt_succ_self k)
        rw [fails] at ok
        cases ok
      | failed _ => exact .inl ⟨_,_,state⟩
      | ended whole _ => exact .inr ⟨_,whole,state⟩
    · have here := at' n
      generalize state : TargetLoop.run path sz file outcomes n = s at here
      cases here with
      | running _ =>
        have all : min sz.toNat (offered outcomes n) = sz.toNat := by omega
        rw [all] at state
        refine .inr ⟨n+1,whole,?_⟩
        rw [TargetLoop.run,state,TargetLoop.stepEnds limit (List.length_take_of_le whole)]
      | failed _ => exact .inl ⟨_,_,state⟩
      | ended whole _ => exact .inr ⟨_,whole,state⟩

theorem targetReadsEndBytes : TargetLoop.Reads [] 2 [97,98] fun _ => .ok 1 :=
  (@targetReadsEnd 2 (by decide) [] [97,98] fun _ => .ok 1).mpr (.inr ⟨by decide,2,by decide⟩)

/- The file has become shorter, and every further read delivers nothing. -/
theorem shrunkTargetLoops : ¬ ∀ (path : Wstr) (sz : UInt64) (file : Bytes)
    (outcomes : Nat → Except UInt32 Nat), sz ≤ 65536 → TargetLoop.Reads path sz file outcomes := by
  intro always
  have runs := @TargetLoop.shrunkRuns [] 1 [] (fun _ => .ok 0) (by decide) (by decide) fun _ => ⟨0,rfl⟩
  rcases (always [] 1 [] (fun _ => .ok 0) (by decide)).ends with ⟨n,e,left⟩ | ⟨n,-,left⟩
  · cases (runs n).symm.trans left
  · cases (runs n).symm.trans left

end LxRunOffline
