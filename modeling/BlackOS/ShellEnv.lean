import BlackOS.LibcText
import BlackOS.Library.Run
import Mathlib.Data.Finset.Card

/-! The environment variables of `kernel/shell/shell_env.c`. -/
namespace BlackOS.ShellEnv
open BlackOS.Library.Ram BlackOS.Library.Run BlackOS.LibcText

def blackMaxEnv : Nat := 64

/-- `black_env_var_t`. -/
structure EnvVar where
  key : Text
  value : Text

/-- The entries of `black_env` up to `black_env_count`. -/
abbrev Env := List EnvVar

/-- The loop that copies the first `n` bytes of a string and ends them with a zero. -/
def copied (src : Text) (n : Nat) : Text where
  bytes := src.bytes.take n
  terminated := src.take_terminated n

/-- The loop of `black_shell_env_set` over the entries. -/
def overwrite : Env → Text → Text → Option Env
  | [],_,_ => none
  | e::env,key,val =>
    if strcmp e.key.bytes key.bytes = 0 then some ({e with value := copied val 127}::env)
    else (overwrite env key val).map (e :: ·)

def blackShellEnvSet (env : Env) (key val : Text) : Env :=
  match overwrite env key val with
  | some env => env
  | none => if env.length < blackMaxEnv then env ++ [⟨copied key 63,copied val 127⟩] else env

def blackShellEnvGet : Env → Text → Option Text
  | [],_ => none
  | e::env,key => if strcmp e.key.bytes key.bytes = 0 then some e.value else blackShellEnvGet env key

/-- "PATH". -/
def pathKey : Text := ⟨[0x50,0x41,0x54,0x48],by decide⟩

/-- "/bin". -/
def binPath : Text := ⟨[0x2F,0x62,0x69,0x6E],by decide⟩

/-- "HOME". -/
def homeKey : Text := ⟨[0x48,0x4F,0x4D,0x45],by decide⟩

/-- "/". -/
def rootPath : Text := ⟨[0x2F],slash_terminated⟩

/-- "SHELL". -/
def shellKey : Text := ⟨[0x53,0x48,0x45,0x4C,0x4C],by decide⟩

/-- "/bin/shell". -/
def shellPath : Text := ⟨[0x2F,0x62,0x69,0x6E,0x2F,0x73,0x68,0x65,0x6C,0x6C],by decide⟩

def blackShellEnvInit : Env :=
  blackShellEnvSet (blackShellEnvSet (blackShellEnvSet [] pathKey binPath) homeKey rootPath) shellKey shellPath

def keys (env : Env) : List Text := env.map EnvVar.key

/-- A call of `black_shell_env_set`. -/
def step (env : Env) (call : Text × Text) : Env := blackShellEnvSet env call.1 call.2

/-- The call acts as on a map: its key has the value, the other keys have theirs, and no key is stored twice. -/
structure Mapped (env : Env) (call : Text × Text) : Prop where
  own : blackShellEnvGet (step env call) call.1 = some (copied call.2 127)
  others : ∀ key, key ≠ call.1 → blackShellEnvGet (step env call) key = blackShellEnvGet env key
  distinct : (keys (step env call)).Nodup

section Lookups
variable (env : Env) (key val : Text)

theorem keys_length : (keys env).length = env.length := List.length_map _

theorem same_key (e : EnvVar) : strcmp e.key.bytes key.bytes = 0 ↔ e.key = key := by
  rw [strcmp_zero _ _ e.key.terminated key.terminated]
  exact Text.ext_iff.symm

theorem get_none : blackShellEnvGet env key = none ↔ key ∉ keys env := by
  induction env with
  | nil => exact iff_of_true rfl List.not_mem_nil
  | cons e env ih =>
    rw [blackShellEnvGet,keys,List.map_cons,List.mem_cons,not_or]
    by_cases same : e.key = key
    · rw [if_pos ((same_key key e).mpr same)]
      exact iff_of_false nofun fun both => both.1 same.symm
    · rw [if_neg fun equal => same ((same_key key e).mp equal),ih]
      exact (and_iff_right fun equal => same equal.symm).symm

theorem get_append (e : EnvVar) : blackShellEnvGet (env ++ [e]) key =
    (blackShellEnvGet env key).or (if e.key = key then some e.value else none) := by
  induction env with
  | nil => exact if_congr (same_key key e) rfl rfl
  | cons f env ih =>
    rw [List.cons_append,blackShellEnvGet,blackShellEnvGet,ih]
    split
    · rfl
    · rfl

theorem overwrite_none : overwrite env key val = none ↔ key ∉ keys env := by
  induction env with
  | nil => exact iff_of_true rfl List.not_mem_nil
  | cons e env ih =>
    rw [overwrite,keys,List.map_cons,List.mem_cons,not_or]
    by_cases same : e.key = key
    · rw [if_pos ((same_key key e).mpr same)]
      exact iff_of_false nofun fun both => both.1 same.symm
    · rw [if_neg fun equal => same ((same_key key e).mp equal),Option.map_eq_none_iff,ih]
      exact (and_iff_right fun equal => same equal.symm).symm

theorem overwrite_some (env' : Env) (done : overwrite env key val = some env') :
    keys env' = keys env ∧ ∀ other, blackShellEnvGet env' other =
      if other = key then some (copied val 127) else blackShellEnvGet env other := by
  induction env generalizing env' with
  | nil => cases done
  | cons e env ih =>
    rw [overwrite] at done
    by_cases same : e.key = key
    · rw [if_pos ((same_key key e).mpr same)] at done
      cases done
      refine ⟨rfl,fun other => ?_⟩
      rw [blackShellEnvGet,blackShellEnvGet]
      by_cases here : other = key
      · rw [if_pos here,if_pos ((same_key other _).mpr (same.trans here.symm))]
      · have apart : ¬strcmp e.key.bytes other.bytes = 0 := fun equal =>
          here (((same_key other e).mp equal).symm.trans same)
        rw [if_neg here,if_neg apart,if_neg apart]
    · rw [if_neg fun equal => same ((same_key key e).mp equal)] at done
      obtain ⟨rest,later,shape⟩ := Option.map_eq_some_iff.mp done
      obtain ⟨kept,gets⟩ := ih rest later
      cases shape
      refine ⟨congrArg (List.cons e.key) kept,fun other => ?_⟩
      rw [blackShellEnvGet,blackShellEnvGet,gets]
      by_cases here : e.key = other
      · rw [if_pos ((same_key other e).mpr here),if_pos ((same_key other e).mpr here),
          if_neg fun equal => same (here.trans equal)]
      · rw [if_neg fun equal => here ((same_key other e).mp equal),if_neg fun equal => here ((same_key other e).mp equal)]

theorem set_present (present : key ∈ keys env) : keys (blackShellEnvSet env key val) = keys env ∧
    ∀ other, blackShellEnvGet (blackShellEnvSet env key val) other =
      if other = key then some (copied val 127) else blackShellEnvGet env other := by
  rw [blackShellEnvSet]
  cases done : overwrite env key val with
  | none => exact absurd present ((overwrite_none env key val).mp done)
  | some env' => exact overwrite_some env key val env' done

theorem set_absent (absent : key ∉ keys env) (room : env.length < blackMaxEnv) :
    blackShellEnvSet env key val = env ++ [⟨copied key 63,copied val 127⟩] := by
  rw [blackShellEnvSet,(overwrite_none env key val).mpr absent]
  exact if_pos room

theorem set_full (absent : key ∉ keys env) (full : ¬env.length < blackMaxEnv) : blackShellEnvSet env key val = env := by
  rw [blackShellEnvSet,(overwrite_none env key val).mpr absent]
  exact if_neg full

theorem copied_whole (n : Nat) (short : key.bytes.length ≤ n) : copied key n = key :=
  Text.ext (List.take_of_length_le short)

end Lookups

/-- The key is short enough to be stored whole, and there is an entry for it. -/
def Fits (env : Env) (call : Text × Text) : Prop :=
  call.1.bytes.length ≤ 63 ∧ (call.1 ∈ keys env ∨ env.length < blackMaxEnv)

structure Sound (env : Env) : Prop where
  distinct : (keys env).Nodup
  short : ∀ key ∈ keys env, key.bytes.length ≤ 63
  room : env.length ≤ blackMaxEnv

section Calls
variable (env : Env) (call : Text × Text)

theorem step_keys (fits : Fits env call) :
    keys (step env call) = if call.1 ∈ keys env then keys env else keys env ++ [call.1] := by
  obtain ⟨short,place⟩ := fits
  by_cases present : call.1 ∈ keys env
  · rw [if_pos present]
    exact (set_present env call.1 call.2 present).1
  · have room := place.resolve_left present
    rw [if_neg present,step,set_absent env call.1 call.2 present room,copied_whole call.1 63 short]
    exact List.map_append

theorem step_mem (fits : Fits env call) (key : Text) : key ∈ keys (step env call) ↔ key ∈ keys env ∨ key = call.1 := by
  rw [step_keys env call fits]
  split
  next present => exact ⟨.inl,fun either => either.elim id fun same => same ▸ present⟩
  next => rw [List.mem_append,List.mem_singleton]

theorem step_sound (sound : Sound env) (fits : Fits env call) : Sound (step env call) := by
  have shape := step_keys env call fits
  refine ⟨?_,fun key among => ?_,?_⟩
  · rw [shape]
    split
    · exact sound.distinct
    next absent =>
      rw [← List.concat_eq_append]
      exact sound.distinct.concat absent
  · rcases (step_mem env call fits key).mp among with old | new
    · exact sound.short key old
    · exact new ▸ fits.1
  · rw [← keys_length,shape]
    split
    · exact (keys_length env).trans_le sound.room
    next absent =>
      have room := fits.2.resolve_left absent
      rw [List.length_append,keys_length]
      exact room

theorem mapped_iff (sound : Sound env) : Mapped env call ↔ Fits env call := by
  by_cases present : call.1 ∈ keys env
  · obtain ⟨kept,gets⟩ := set_present env call.1 call.2 present
    refine iff_of_true ⟨?_,fun key other => ?_,?_⟩ ⟨sound.short call.1 present,.inl present⟩
    · exact (gets call.1).trans (if_pos rfl)
    · exact (gets key).trans (if_neg other)
    · exact kept ▸ sound.distinct
  have unset : blackShellEnvGet env call.1 = none := (get_none env call.1).mpr present
  by_cases room : env.length < blackMaxEnv
  · have shape : step env call = _ := set_absent env call.1 call.2 present room
    refine ⟨fun mapped => ?_,fun fits => ⟨?_,fun key other => ?_,(step_sound env call sound fits).distinct⟩⟩
    · have own := mapped.own
      rw [shape,get_append,unset] at own
      obtain ⟨same,_⟩ := Option.ite_none_right_eq_some.mp own
      refine ⟨?_,.inr room⟩
      rw [← same]
      exact List.length_take_le 63 call.1.bytes
    · rw [shape,get_append,unset,copied_whole call.1 63 fits.1]
      exact if_pos rfl
    · rw [shape,get_append,copied_whole call.1 63 fits.1,if_neg other.symm]
      exact Option.or_none
  · refine iff_of_false (fun mapped => ?_) fun fits => fits.2.elim present room
    have own := mapped.own
    rw [step,set_full env call.1 call.2 present room,unset] at own
    cases own

end Calls

/-- What was set so far and what is still to be set are together the same keys after a call. -/
theorem fits_iff (calls : List (Text × Text)) (env : Env) (sound : Sound env) : Throughout step Fits env calls ↔
    (∀ call ∈ calls, call.1.bytes.length ≤ 63) ∧ (keys env ++ calls.map Prod.fst).toFinset.card ≤ blackMaxEnv := by
  induction calls generalizing env with
  | nil =>
    refine iff_of_true True.intro ⟨nofun,?_⟩
    rw [List.map_nil,List.append_nil]
    exact ((List.toFinset_card_le _).trans_eq (keys_length env)).trans sound.room
  | cons call calls ih =>
    rw [Throughout,List.forall_mem_cons]
    by_cases fits : Fits env call
    · have union : (keys (step env call) ++ calls.map Prod.fst).toFinset =
          (keys env ++ (call :: calls).map Prod.fst).toFinset := by
        ext key
        rw [List.mem_toFinset,List.mem_toFinset,List.mem_append,List.mem_append,step_mem env call fits,
          List.map_cons,List.mem_cons,or_assoc]
      rw [ih _ (step_sound env call sound fits),union,and_iff_right fits,and_iff_right fits.1]
    · refine iff_of_false (fun both => fits both.1) fun both => fits ⟨both.1.1,?_⟩
      by_contra without
      obtain ⟨absent,full⟩ := not_or.mp without
      have among : (call.1 :: keys env).toFinset ⊆ (keys env ++ (call :: calls).map Prod.fst).toFinset := by
        intro key
        rw [List.mem_toFinset,List.mem_toFinset,List.mem_append,List.map_cons,List.mem_cons,List.mem_cons]
        exact fun either => either.elim (fun own => .inr (.inl own)) .inl
      have many := Finset.card_le_card among
      rw [List.toFinset_card_of_nodup (List.nodup_cons.mpr ⟨absent,sound.distinct⟩),List.length_cons,keys_length] at many
      have room := both.2
      omega

theorem init_sound : Sound blackShellEnvInit := ⟨by decide,by decide,by decide⟩

/-- The variables behave as a map in just the runs that set no key of more than 63 bytes and no more
than 64 keys, with those of `black_shell_env_init`. -/
theorem env_map_iff (calls : List (Text × Text)) : Throughout step Mapped blackShellEnvInit calls ↔
    (∀ call ∈ calls, call.1.bytes.length ≤ 63) ∧
      ([pathKey,homeKey,shellKey] ++ calls.map Prod.fst).toFinset.card ≤ blackMaxEnv := by
  rw [throughout_iff step Mapped Fits Sound mapped_iff step_sound blackShellEnvInit init_sound calls]
  exact fits_iff calls blackShellEnvInit init_sound

/-- A name of 64 letters, which is stored without its last one. -/
def longKey : Text := ⟨List.replicate 64 0x41,by decide⟩

theorem long_key_lost : blackShellEnvGet (blackShellEnvSet blackShellEnvInit longKey rootPath) longKey = none ∧
    ¬Throughout step Mapped blackShellEnvInit [(longKey,rootPath)] := by
  have lost : blackShellEnvGet (blackShellEnvSet blackShellEnvInit longKey rootPath) longKey = none := by decide
  refine ⟨lost,fun all => ?_⟩
  have own := all.1.own
  rw [step,lost] at own
  cases own

end BlackOS.ShellEnv
