import BlackOS.LibcText
import BlackOS.Library.Trace
import Mathlib.Algebra.Group.Nat.Even
import Mathlib.Data.List.DropRight
import Mathlib.Data.Nat.Digits.Defs

/-! `black_serial_printf` of `kernel/drivers/serial/serial.c` and `black_klog` of `kernel/core/klog.c`. The format
lies in the memory; the reads of its characters are logged, and the calls of `black_serial_putchar`. -/
namespace BlackOS.SerialFormat
open BlackOS.Library.Ram BlackOS.Library.Trace BlackOS.LibcText

/-- A read of the format, or a call of `black_serial_putchar`. -/
inductive Event
  | read (addr : Word)
  | put (c : Byte)
  deriving DecidableEq

/-- An argument behind the format; `none` is the null pointer. -/
inductive Arg
  | string (s : Option Text)
  | int (v : Word)

inductive Kind
  | string
  | int
  deriving DecidableEq

def Arg.kind : Arg → Kind
  | .string _ => .string
  | .int _ => .int

def blackSerialPutchar (c : Byte) : Traced Event Unit := logged (.put c) (some ())

/-- `black_serial_puts` of a string of these characters. -/
def blackSerialPuts : List Byte → Traced Event Unit
  | [] => pure ()
  | c::s => do
    blackSerialPutchar c
    blackSerialPuts s

def hexDigit (nibble : Word) : Byte := (if nibble < 10 then 0x30 + nibble else 0x41 + nibble - 10).setWidth 8

/-- The loop of `black_serial_put_hex`, from the last digit to the first. -/
def hexLoop : Nat → Word → List Byte → List Byte
  | 0,_,hex => hex
  | i+1,val,hex => hexLoop i (val >>> 4) (hexDigit (val &&& 0xF)::hex)

def blackSerialPutHex (val : Word) : Traced Event Unit := blackSerialPuts (hexLoop 8 val [])

/-- `black_buf`, which begins with the last digit, is printed from its end. -/
def blackSerialPutDec (val : Word) : Traced Event Unit :=
  if val = 0 then blackSerialPutchar 0x30
  else blackSerialPuts ((Nat.digits 10 val.toNat).map fun digit => 0x30 + BitVec.ofNat 8 digit).reverse

/-- `va_arg` of a pointer; of another argument it is undefined. -/
def vaString : List Arg → Option (Option Text × List Arg)
  | .string s::args => some (s,args)
  | _ => none

def vaInt : List Arg → Option (Word × List Arg)
  | .int v::args => some (v,args)
  | _ => none

/-- "(null)". -/
def nullText : Text := ⟨[0x28,0x6E,0x75,0x6C,0x6C,0x29],by decide⟩

def percent : Byte := 0x25

def putSigned (v : Word) : Traced Event Unit :=
  if v.slt 0 then do
    blackSerialPutchar 0x2D
    blackSerialPutDec (-v)
  else blackSerialPutDec v

/-- The next argument is printed; those behind it are returned. -/
def takeString (args : List Arg) (print : Option Text → Traced Event Unit) : Traced Event (List Arg) := do
  let (s,args) ← quiet (vaString args)
  print s
  return args

def takeInt (args : List Arg) (print : Word → Traced Event Unit) : Traced Event (List Arg) := do
  let (v,args) ← quiet (vaInt args)
  print v
  return args

/-- The cases `s`, `d`, `u` and `x`, which the two functions have in common. -/
def conversion (c : Byte) (args : List Arg) (other : Traced Event (List Arg)) : Traced Event (List Arg) :=
  if c = 0x73 then takeString args fun s => blackSerialPuts (s.getD nullText).bytes
  else if c = 0x64 then takeInt args putSigned
  else if c = 0x75 then takeInt args blackSerialPutDec
  else if c = 0x78 then takeInt args blackSerialPutHex
  else other

/-- The cases of `black_klog`. -/
def klogConversion (c : Byte) (args : List Arg) : Traced Event (List Arg) :=
  conversion c args do
    blackSerialPutchar c
    return args

/-- The cases of `black_serial_printf`. -/
def printfConversion (c : Byte) (args : List Arg) : Traced Event (List Arg) :=
  conversion c args <|
    if c = 0x63 then takeInt args fun v => blackSerialPutchar (v.setWidth 8)
    else if c = percent then do
      blackSerialPutchar percent
      return args
    else return args

section Loop
variable (mem : Memory) (convert : Byte → List Arg → Traced Event (List Arg))

def readChar (fmt : Word) : Traced Event Byte := logged (.read fmt) (some (mem fmt))

/-- The loop over the format, with `black_count`. The character of a turn is read once. -/
def formatLoop : Nat → Word → List Arg → Word → Traced Event Word
  | 0,_,_,_ => quiet none
  | fuel+1,fmt,args,count => do
    let c ← readChar mem fmt
    if c = 0 then return count
    else if c = percent then
      let c ← readChar mem (fmt + 1)
      let args ← convert c args
      formatLoop fuel (fmt + 1 + 1) args (count + 1)
    else
      blackSerialPutchar c
      formatLoop fuel (fmt + 1) args (count + 1)

end Loop

def blackSerialPrintf (mem : Memory) (fuel : Nat) (fmt : Word) (args : List Arg) : Traced Event Word :=
  formatLoop mem printfConversion fuel fmt args 0

/-- "DBG", "INF", "WRN", "ERR" and "FTL". -/
def blackLevelNames : List (List Byte) :=
  [[0x44,0x42,0x47],[0x49,0x4E,0x46],[0x57,0x52,0x4E],[0x45,0x52,0x52],[0x46,0x54,0x4C]]

/-- What `black_klog` prints before the format. -/
def klogPrefix (level : Int) (subsys : Text) : Traced Event Unit := do
  let level := if level < 0 ∨ 4 < level then 1 else level
  blackSerialPutchar 0x5B
  blackSerialPuts (blackLevelNames.getD level.toNat [])
  blackSerialPutchar 0x5D
  blackSerialPutchar 0x5B
  blackSerialPuts subsys.bytes
  blackSerialPutchar 0x5D
  blackSerialPutchar 0x20

/-- The loop of `black_klog` does not count its turns. -/
def blackKlog (mem : Memory) (fuel : Nat) (level : Int) (subsys : Text) (fmt : Word) (args : List Arg) : Traced Event Unit := do
  klogPrefix level subsys
  let _ ← formatLoop mem klogConversion fuel fmt args 0
  blackSerialPutchar 0x0A

/-- The arguments that the conversions of a format take. -/
def demanded (takes : Byte → Option Kind) : List Byte → List Kind
  | [] => []
  | c::s =>
    if c = percent then
      match s with
      | [] => []
      | d::s => (takes d).toList ++ demanded takes s
    else demanded takes s

/-- Whether a conversion begins with the last character. -/
def pending (s : List Byte) : Bool := s.foldl (fun before c => c == percent && !before) false

def trailing (s : List Byte) : List Byte := s.rtakeWhile (· == percent)

theorem pending_odd (s : List Byte) : pending s = true ↔ Odd (trailing s).length := by
  induction s using List.reverseRecOn with
  | nil => exact iff_of_false nofun (by decide)
  | append_singleton s c ih =>
    rw [pending,List.foldl_append,← pending,List.foldl_cons,List.foldl_nil,trailing,List.rtakeWhile_concat,← trailing]
    by_cases sign : c = percent
    · rw [if_pos (beq_iff_eq.mpr sign),List.length_append,List.length_singleton,Nat.odd_add_one,← ih,
        Bool.and_eq_true,Bool.not_eq_true']
      rw [Bool.not_eq_true]
      exact and_iff_right (beq_iff_eq.mpr sign)
    · rw [if_neg fun same => sign (beq_iff_eq.mp same),beq_false_of_ne sign,Bool.false_and]
      exact iff_of_false nofun (by decide)

/-- A string with its terminator. -/
def Stored (mem : Memory) : Word → List Byte → Prop
  | a,[] => mem a = 0
  | a,c::s => mem a = c ∧ Stored mem (a + 1) s

/-- A computation that succeeds and does not read the format. -/
structure Prints {α : Type} (x : Traced Event α) (a : α) : Prop where
  result : x.result = some a
  only : ∀ P : Event → Prop, (∀ c, P (.put c)) → Only P x

theorem prints_bind {α β : Type} (x : Traced Event α) (f : α → Traced Event β) (a : α) (b : β)
    (first : Prints x a) (second : Prints (f a) b) : Prints (x >>= f) b where
  result := by rw [result_bind,first.result,Option.bind_some,second.result]
  only P put := by
    refine (only_bind P x f).mpr ⟨first.only P put,fun c same => ?_⟩
    cases first.result.symm.trans same
    exact second.only P put

theorem prints_pure {α : Type} (a : α) : Prints (pure a) a := ⟨rfl,fun P _ => only_pure P a⟩

theorem prints_quiet {α : Type} (x : Option α) (a : α) (some : x = some a) : Prints (quiet x) a :=
  ⟨some,fun P _ => only_quiet P x⟩

theorem prints_putchar (c : Byte) : Prints (blackSerialPutchar c) () :=
  ⟨rfl,fun P put => (only_logged P _ _).mpr (put c)⟩

theorem prints_puts (s : List Byte) : Prints (blackSerialPuts s) () := by
  induction s with
  | nil => exact prints_pure ()
  | cons c s ih => exact prints_bind _ _ () () (prints_putchar c) ih

theorem prints_dec (val : Word) : Prints (blackSerialPutDec val) () := by
  rw [blackSerialPutDec]
  split
  · exact prints_putchar 0x30
  · exact prints_puts _

theorem prints_signed (v : Word) : Prints (putSigned v) () := by
  rw [putSigned]
  split
  · exact prints_bind _ _ () () (prints_putchar 0x2D) (prints_dec (-v))
  · exact prints_dec v

theorem klogPrefix_prints (level : Int) (subsys : Text) : Prints (klogPrefix level subsys) () := by
  refine prints_bind _ _ () () (prints_putchar 0x5B) (prints_bind _ _ () () (prints_puts _) ?_)
  refine prints_bind _ _ () () (prints_putchar 0x5D) (prints_bind _ _ () () (prints_putchar 0x5B) ?_)
  refine prints_bind _ _ () () (prints_puts subsys.bytes) (prints_bind _ _ () () (prints_putchar 0x5D) ?_)
  exact prints_putchar 0x20

/-- The argument of a case of the two functions. -/
def taken (c : Byte) : Option Kind :=
  if c = 0x73 then some .string else if c = 0x64 ∨ c = 0x75 ∨ c = 0x78 then some .int else none

def printfTaken (c : Byte) : Option Kind := if c = 0x63 then some .int else taken c

/-- The arguments have the kinds that are demanded, and there may be others behind them. -/
def Matching (kinds : List Kind) (args : List Arg) : Prop := kinds <+: args.map Arg.kind

section Arguments
variable (args : List Arg) (kinds : List Kind)

theorem string_printed (print : Option Text → Traced Event Unit) (prints : ∀ s, Prints (print s) ())
    (matching : Matching (.string::kinds) args) : ∃ rest, Prints (takeString args print) rest ∧ Matching kinds rest := by
  match args with
  | [] => exact absurd (List.prefix_nil.mp matching) nofun
  | .int _::_ => exact absurd (List.cons_prefix_cons.mp matching).1 nofun
  | .string s::rest =>
    refine ⟨rest,prints_bind _ _ (s,rest) rest (prints_quiet _ _ rfl) ?_,(List.cons_prefix_cons.mp matching).2⟩
    exact prints_bind _ _ () rest (prints s) (prints_pure rest)

theorem int_printed (print : Word → Traced Event Unit) (prints : ∀ v, Prints (print v) ())
    (matching : Matching (.int::kinds) args) : ∃ rest, Prints (takeInt args print) rest ∧ Matching kinds rest := by
  match args with
  | [] => exact absurd (List.prefix_nil.mp matching) nofun
  | .string _::_ => exact absurd (List.cons_prefix_cons.mp matching).1 nofun
  | .int v::rest =>
    refine ⟨rest,prints_bind _ _ (v,rest) rest (prints_quiet _ _ rfl) ?_,(List.cons_prefix_cons.mp matching).2⟩
    exact prints_bind _ _ () rest (prints v) (prints_pure rest)

theorem conversion_printed (c : Byte) (other : Traced Event (List Arg))
    (known : ∀ kind, taken c = some kind → Matching (kind::kinds) args)
    (unknown : taken c = none → ∃ rest, Prints other rest ∧ Matching kinds rest) :
    ∃ rest, Prints (conversion c args other) rest ∧ Matching kinds rest := by
  rw [conversion]
  by_cases s : c = 0x73
  · rw [if_pos s]
    exact string_printed args kinds _ (fun s => prints_puts _) (known _ (if_pos s))
  rw [taken,if_neg s] at known unknown
  rw [if_neg s]
  by_cases d : c = 0x64
  · rw [if_pos d]
    exact int_printed args kinds _ prints_signed (known _ (if_pos (.inl d)))
  rw [if_neg d]
  by_cases u : c = 0x75
  · rw [if_pos u]
    exact int_printed args kinds _ prints_dec (known _ (if_pos (.inr (.inl u))))
  rw [if_neg u]
  by_cases x : c = 0x78
  · rw [if_pos x]
    exact int_printed args kinds _ (fun v => prints_puts _) (known _ (if_pos (.inr (.inr x))))
  · rw [if_neg x]
    exact unknown (if_neg fun either => either.elim d fun either => either.elim u x)

end Arguments

/-- The cases take arguments of these kinds, print, and do not read the format. -/
structure Converts (takes : Byte → Option Kind) (convert : Byte → List Arg → Traced Event (List Arg)) : Prop where
  terminator : takes 0 = none
  printed : ∀ c args kinds, Matching ((takes c).toList ++ kinds) args → ∃ rest, Prints (convert c args) rest ∧ Matching kinds rest

theorem klog_converts : Converts taken klogConversion where
  terminator := by decide
  printed c args kinds matching := by
    refine conversion_printed args kinds c _ (fun kind some => ?_) fun none => ⟨args,?_,?_⟩
    · rw [some] at matching
      exact matching
    · exact prints_bind _ _ () args (prints_putchar c) (prints_pure args)
    · rw [none] at matching
      exact matching

theorem printf_converts : Converts printfTaken printfConversion where
  terminator := by decide
  printed c args kinds matching := by
    rw [printfTaken] at matching
    refine conversion_printed args kinds c _ (fun kind some => ?_) fun none => ?_
    · have other : c ≠ 0x63 := by
        rintro rfl
        cases some
      rw [if_neg other,some] at matching
      exact matching
    by_cases char : c = 0x63
    · rw [if_pos char]
      rw [if_pos char] at matching
      exact int_printed args kinds _ (fun v => prints_putchar _) matching
    rw [if_neg char,none] at matching
    rw [if_neg char]
    refine ⟨args,?_,matching⟩
    split
    · exact prints_bind _ _ () args (prints_putchar percent) (prints_pure args)
    · exact prints_pure args

section Loop
variable (mem : Memory) (convert : Byte → List Arg → Traced Event (List Arg)) (fuel : Nat) (fmt : Word) (args : List Arg)
  (count : Word)

theorem loop_first : .read fmt ∈ (formatLoop mem convert (fuel + 1) fmt args count).events := by
  rw [formatLoop,events_bind _ _ (mem fmt) rfl]
  exact List.mem_append_left _ List.mem_cons_self

theorem loop_end (zero : mem fmt = 0) : formatLoop mem convert (fuel + 1) fmt args count = ⟨[.read fmt],some count⟩ := by
  simp only [formatLoop,readChar,logged,bind,Traced.bind,zero,if_true]
  rfl

theorem loop_plain (nonzero : mem fmt ≠ 0) (plain : mem fmt ≠ percent) :
    formatLoop mem convert (fuel + 1) fmt args count =
      ⟨.read fmt::.put (mem fmt)::(formatLoop mem convert fuel (fmt + 1) args (count + 1)).events,
        (formatLoop mem convert fuel (fmt + 1) args (count + 1)).result⟩ := by
  simp only [formatLoop,readChar,blackSerialPutchar,logged,bind,Traced.bind,if_neg nonzero,if_neg plain]
  rfl

theorem loop_conversion (rest : List Arg) (sign : mem fmt = percent) (done : (convert (mem (fmt + 1)) args).result = some rest) :
    formatLoop mem convert (fuel + 1) fmt args count =
      ⟨.read fmt::.read (fmt + 1)::((convert (mem (fmt + 1)) args).events ++
        (formatLoop mem convert fuel (fmt + 1 + 1) rest (count + 1)).events),
        (formatLoop mem convert fuel (fmt + 1 + 1) rest (count + 1)).result⟩ := by
  have nonzero : percent ≠ 0 := by decide
  simp only [formatLoop,readChar,logged,bind,Traced.bind,sign,if_neg nonzero,if_true,done]
  rfl

end Loop

theorem pending_plain (c : Byte) (s : List Byte) (plain : c ≠ percent) : pending (c::s) = pending s := by
  rw [pending,List.foldl_cons,beq_false_of_ne plain]
  rfl

theorem pending_conversion (d : Byte) (s : List Byte) : pending (percent::d::s) = pending s := by
  rw [pending,List.foldl_cons,List.foldl_cons,beq_self_eq_true,Bool.not_false,Bool.and_self,Bool.not_true,Bool.and_false]
  rfl

theorem demanded_plain (takes : Byte → Option Kind) (c : Byte) (s : List Byte) (plain : c ≠ percent) :
    demanded takes (c::s) = demanded takes s := by
  cases s with
  | nil => exact if_neg plain
  | cons d s => exact if_neg plain

def Within (lo hi : Nat) : Event → Prop
  | .read a => lo ≤ a.toNat ∧ a.toNat ≤ hi
  | .put _ => True

theorem next_address (a : Word) (hi : Nat) (top : hi < 2^32) (below : a.toNat + 1 ≤ hi) : (a + 1).toNat = a.toNat + 1 := by
  rw [BitVec.toNat_add]
  exact Nat.mod_eq_of_lt (Nat.lt_of_le_of_lt below top)

section Runs
variable (mem : Memory) {takes : Byte → Option Kind} {convert : Byte → List Arg → Traced Event (List Arg)}
  (converts : Converts takes convert)
include converts

/-- No conversion begins with the last character: the loop stops at the terminator. -/
theorem loop_within (s : List Byte) (clean : 0 ∉ s) (closed : pending s = false) (lo hi : Nat) (top : hi < 2^32)
    (fmt : Word) (low : lo ≤ fmt.toNat) (high : fmt.toNat + s.length ≤ hi) (stored : Stored mem fmt s) (args : List Arg)
    (matching : Matching (demanded takes s) args) (fuel : Nat) (count : Word) :
    Only (Within lo hi) (formatLoop mem convert fuel fmt args count) ∧
      (s.length < fuel → (formatLoop mem convert fuel fmt args count).result.isSome) := by
  induction s using demanded.induct generalizing fmt args fuel count with
  | case1 =>
    cases fuel with
    | zero => exact ⟨only_quiet _ none,nofun⟩
    | succ fuel =>
      rw [loop_end mem convert fuel fmt args count stored]
      exact ⟨List.forall_mem_singleton.mpr ⟨low,high⟩,fun _ => rfl⟩
  | case2 => cases closed
  | case3 d s ih =>
    cases fuel with
    | zero => exact ⟨only_quiet _ none,nofun⟩
    | succ fuel =>
      obtain ⟨sign,second,behind⟩ := stored
      rw [demanded,if_pos rfl] at matching
      obtain ⟨rest,printed,left⟩ := converts.printed d args _ matching
      rw [List.length_cons,List.length_cons] at high
      have next := next_address fmt hi top (by omega)
      have after := next_address (fmt + 1) hi top (by omega)
      have tail := ih (fun zero => clean (List.mem_cons_of_mem _ (List.mem_cons_of_mem _ zero)))
        ((pending_conversion d s).symm.trans closed) (fmt + 1 + 1) (by omega) (by omega) behind rest left fuel (count + 1)
      rw [← second] at printed
      rw [loop_conversion mem convert fuel fmt args count rest sign printed.result]
      refine ⟨List.forall_mem_cons.mpr ⟨⟨low,by omega⟩,List.forall_mem_cons.mpr ⟨⟨by omega,by omega⟩,
        List.forall_mem_append.mpr ⟨printed.only _ fun _ => True.intro,tail.1⟩⟩⟩,fun enough => tail.2 ?_⟩
      rw [List.length_cons,List.length_cons] at enough
      omega
  | case4 c s plain ih =>
    cases fuel with
    | zero => exact ⟨only_quiet _ none,nofun⟩
    | succ fuel =>
      obtain ⟨first,behind⟩ := stored
      rw [demanded_plain takes c s plain] at matching
      rw [List.length_cons] at high
      have next := next_address fmt hi top (by omega)
      have nonzero : mem fmt ≠ 0 := fun zero => clean (List.mem_cons.mpr (.inl (zero.symm.trans first)))
      have tail := ih (fun zero => clean (List.mem_cons_of_mem _ zero)) ((pending_plain c s plain).symm.trans closed)
        (fmt + 1) (by omega) (by omega) behind args matching fuel (count + 1)
      rw [loop_plain mem convert fuel fmt args count nonzero (first.trans_ne plain)]
      refine ⟨List.forall_mem_cons.mpr ⟨⟨low,by omega⟩,List.forall_mem_cons.mpr ⟨True.intro,tail.1⟩⟩,fun enough => tail.2 ?_⟩
      rw [List.length_cons] at enough
      omega

/-- A conversion that begins with the last character takes the terminator, and the loop reads on behind it. -/
theorem loop_beyond (s : List Byte) (clean : 0 ∉ s) (opened : pending s = true) (fmt : Word) (stored : Stored mem fmt s)
    (args : List Arg) (matching : Matching (demanded takes s) args) (fuel : Nat) (enough : s.length ≤ fuel) (count : Word) :
    .read (fmt + word (s.length + 1)) ∈ (formatLoop mem convert (fuel + 1) fmt args count).events := by
  have shift (a : Word) (n : Nat) : a + 1 + word n = a + word (n + 1) := by
    rw [BitVec.add_assoc,Nat.add_comm n 1,← word_add]
    rfl
  induction s using demanded.induct generalizing fmt args fuel count with
  | case1 => cases opened
  | case2 =>
    obtain ⟨sign,zero⟩ := stored
    have none : Matching ((takes 0).toList ++ []) args := by
      rw [converts.terminator]
      exact List.nil_prefix
    obtain ⟨rest,printed,left⟩ := converts.printed 0 args [] none
    rw [← zero] at printed
    rw [loop_conversion mem convert fuel fmt args count rest sign printed.result]
    have last : fmt + 1 + 1 = fmt + word (1 + 1) := shift fmt 1
    cases fuel with
    | zero => cases enough
    | succ fuel =>
      have read := loop_first mem convert fuel (fmt + 1 + 1) rest (count + 1)
      rw [List.length_singleton,← last]
      exact List.mem_cons_of_mem _ (List.mem_cons_of_mem _ (List.mem_append_right _ read))
  | case3 d s ih =>
    obtain ⟨sign,second,behind⟩ := stored
    rw [demanded,if_pos rfl] at matching
    obtain ⟨rest,printed,left⟩ := converts.printed d args _ matching
    rw [← second] at printed
    rw [loop_conversion mem convert fuel fmt args count rest sign printed.result]
    rw [List.length_cons,List.length_cons] at enough
    cases fuel with
    | zero => cases enough
    | succ fuel =>
      have tail := ih (fun zero => clean (List.mem_cons_of_mem _ (List.mem_cons_of_mem _ zero)))
        ((pending_conversion d s).symm.trans opened) (fmt + 1 + 1) behind rest left fuel (by omega) (count + 1)
      rw [shift,shift] at tail
      exact List.mem_cons_of_mem _ (List.mem_cons_of_mem _ (List.mem_append_right _ tail))
  | case4 c s plain ih =>
    obtain ⟨first,behind⟩ := stored
    rw [demanded_plain takes c s plain] at matching
    have nonzero : mem fmt ≠ 0 := fun zero => clean (List.mem_cons.mpr (.inl (zero.symm.trans first)))
    rw [loop_plain mem convert fuel fmt args count nonzero (first.trans_ne plain)]
    rw [List.length_cons] at enough
    cases fuel with
    | zero => cases enough
    | succ fuel =>
      have tail := ih (fun zero => clean (List.mem_cons_of_mem _ zero)) ((pending_plain c s plain).symm.trans opened)
        (fmt + 1) behind args matching fuel (by omega) (count + 1)
      rw [shift] at tail
      exact List.mem_cons_of_mem _ (List.mem_cons_of_mem _ tail)

end Runs

/-- A format string that lies in the memory, and not at the null pointer. -/
structure FormatAt (mem : Memory) (fmt : Word) (s : Text) : Prop where
  nonnull : fmt ≠ 0
  room : fmt.toNat + s.bytes.length < 2^32
  stored : Stored mem fmt s.bytes

/-- The function reads the format up to its terminator only, and returns. -/
def StaysInside {α : Type} (fmt : Word) (s : Text) (run : Nat → Traced Event α) : Prop :=
  (∀ fuel, Only (Within fmt.toNat (fmt.toNat + s.bytes.length)) (run fuel)) ∧ ∃ fuel, (run fuel).result.isSome

section Formats
variable (mem : Memory) (fmt : Word) (s : Text)

/-- What is printed before and behind the loop makes no difference. -/
theorem klog_inside_iff (level : Int) (subsys : Text) (args : List Arg) :
    StaysInside fmt s (fun fuel => blackKlog mem fuel level subsys fmt args) ↔
      StaysInside fmt s (fun fuel => formatLoop mem klogConversion fuel fmt args 0) := by
  have front := klogPrefix_prints level subsys
  have same (fuel : Nat) (lo hi : Nat) : Only (Within lo hi) (blackKlog mem fuel level subsys fmt args) ↔
      Only (Within lo hi) (formatLoop mem klogConversion fuel fmt args 0) := by
    rw [blackKlog,only_bind,only_bind]
    refine ⟨fun both => (both.2 () front.result).1,fun only => ⟨front.only _ fun _ => True.intro,fun _ _ => ⟨only,fun _ _ => ?_⟩⟩⟩
    exact (prints_putchar 0x0A).only _ fun _ => True.intro
  have returns (fuel : Nat) : (blackKlog mem fuel level subsys fmt args).result.isSome =
      (formatLoop mem klogConversion fuel fmt args 0).result.isSome := by
    rw [blackKlog,result_bind,front.result,Option.bind_some,result_bind]
    cases (formatLoop mem klogConversion fuel fmt args 0).result with
    | none => rfl
    | some count => rfl
  exact and_congr (forall_congr' fun fuel => same fuel _ _) (exists_congr fun fuel => by rw [returns])

variable (format : FormatAt mem fmt s)
include format

theorem beyond (inside : Within fmt.toNat (fmt.toNat + s.bytes.length) (.read (fmt + word (s.bytes.length + 1)))) : False := by
  obtain ⟨low,high⟩ := inside
  have room := format.room
  have nonnull : fmt.toNat ≠ 0 := fun zero => format.nonnull (BitVec.eq_of_toNat_eq zero)
  rw [BitVec.toNat_add,word,BitVec.toNat_ofNat] at low high
  omega

theorem loop_inside_iff {takes : Byte → Option Kind} {convert : Byte → List Arg → Traced Event (List Arg)}
    (converts : Converts takes convert) (args : List Arg) (matching : Matching (demanded takes s.bytes) args) :
    StaysInside fmt s (fun fuel => formatLoop mem convert fuel fmt args 0) ↔ Even (trailing s.bytes).length := by
  rw [← Nat.not_odd_iff_even,← pending_odd,Bool.not_eq_true]
  constructor
  · intro inside
    by_contra opened
    have read := loop_beyond mem converts s.bytes s.terminated (Bool.eq_true_of_not_eq_false opened) fmt format.stored
      args matching s.bytes.length (Nat.le_refl _) 0
    exact beyond mem fmt s format (inside.1 _ _ read)
  · intro closed
    have within := loop_within mem converts s.bytes s.terminated closed fmt.toNat _ format.room fmt (Nat.le_refl _)
      (Nat.le_refl _) format.stored args matching
    exact ⟨fun fuel => (within fuel 0).1,s.bytes.length + 1,(within _ 0).2 (Nat.lt_succ_self _)⟩

/-- The format is read up to its terminator just where the number of percent signs at its end is even. -/
theorem format_inside_iff :
    (∀ level subsys args, Matching (demanded taken s.bytes) args →
      (StaysInside fmt s (fun fuel => blackKlog mem fuel level subsys fmt args) ↔ Even (trailing s.bytes).length)) ∧
    ∀ args, Matching (demanded printfTaken s.bytes) args →
      (StaysInside fmt s (fun fuel => blackSerialPrintf mem fuel fmt args) ↔ Even (trailing s.bytes).length) := by
  refine ⟨fun level subsys args matching => ?_,fun args matching => ?_⟩
  · rw [klog_inside_iff]
    exact loop_inside_iff mem fmt s format klog_converts args matching
  · exact loop_inside_iff mem fmt s format printf_converts args matching

end Formats

/-- The string "%d" at the address `0x1000`. -/
def decimalMemory : Memory := fun a => if a = 0x1000 then 0x25 else if a = 0x1001 then 0x64 else 0

theorem format_inside_iff_decimal : StaysInside 0x1000 ⟨[0x25,0x64],by decide⟩
    (fun fuel => blackSerialPrintf decimalMemory fuel 0x1000 [.int 7]) := by
  have format : FormatAt decimalMemory 0x1000 ⟨[0x25,0x64],by decide⟩ := ⟨by decide,by decide,rfl,rfl,rfl⟩
  refine ((format_inside_iff decimalMemory 0x1000 ⟨[0x25,0x64],by decide⟩ format).2 [.int 7] ?_).mpr (by decide)
  exact List.prefix_rfl

/-- The string "%" at the address `0x1000`. -/
def signMemory : Memory := fun a => if a = 0x1000 then 0x25 else 0

theorem sign_passed : FormatAt signMemory 0x1000 ⟨[0x25],by decide⟩ ∧
    ¬StaysInside 0x1000 ⟨[0x25],by decide⟩ (fun fuel => blackKlog signMemory fuel 1 ⟨[],nofun⟩ 0x1000 []) ∧
    ¬StaysInside 0x1000 ⟨[0x25],by decide⟩ (fun fuel => blackSerialPrintf signMemory fuel 0x1000 []) := by
  have klog : .read 0x1002 ∈ (blackKlog signMemory 2 1 ⟨[],nofun⟩ 0x1000 []).events := by decide
  have printf : .read 0x1002 ∈ (blackSerialPrintf signMemory 2 0x1000 []).events := by decide
  have outside : ¬Within 0x1000 0x1001 (.read 0x1002) := fun inside => absurd inside.2 (by decide)
  exact ⟨⟨by decide,by decide,rfl,rfl⟩,fun inside => outside (inside.1 2 _ klog),
    fun inside => outside (inside.1 2 _ printf)⟩

end BlackOS.SerialFormat
