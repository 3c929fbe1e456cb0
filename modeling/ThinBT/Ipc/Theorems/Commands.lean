import ThinBT.Ipc.Server

namespace ThinBT.IpcServer

open Cli Strings

-- An argument with its key in the request and what the daemon takes for it if it finds none. The
-- daemon refuses a command if there is nothing to take.
structure Argument where
  key      : String
  value    : List UInt8
  fallback : Option (List UInt8)
  deriving DecidableEq

def name : Command → String
  | .seed ..              => "seed"
  | .add ..               => "add"
  | .update .. | .status _ => "update"
  | .list                 => "list"
  | .peers _              => "peers"
  | .remove _             => "remove"

def arguments : Command → List Argument
  | .seed seedPath filePath => [⟨"seed_path", seedPath, some []⟩, ⟨"file_path", filePath, some []⟩]
  | .add seedPath savePath  =>
    [⟨"seed_path", seedPath, none⟩, ⟨"save_path", savePath, some downloadedFile⟩]
  | .update newSeed newFile oldSeed oldFile =>
    [⟨"new_seed", newSeed, none⟩, ⟨"new_file", newFile, some []⟩, ⟨"old_seed", oldSeed, some []⟩,
      ⟨"old_file", oldFile, some []⟩]
  | .status taskId          => [⟨"task_id", taskId, none⟩]
  | .list                   => []
  | .peers taskId           => [⟨"task_id", taskId, none⟩]
  | .remove taskId          => [⟨"task_id", taskId, some []⟩]

-- The bytes have `"key":"value"`.
def Contains (bytes : List UInt8) (key : String) (value : List UInt8) : Prop :=
  utf8 "\"" ++ utf8 key ++ utf8 "\":\"" ++ value ++ utf8 "\"" <:+: bytes

instance {bytes value : List UInt8} : Decidable (Contains bytes key value) :=
  inferInstanceAs (Decidable (_ <:+: _))

-- The argument has no quotes, and it is there or the daemon takes the same for it.
def Arrives (bytes : List UInt8) (x : Argument) : Prop :=
  34 ∉ x.value ∧ ((x.value ≠ [] ∧ Contains bytes x.key x.value) ∨ x.fallback = some x.value)

instance {bytes : List UInt8} {x : Argument} : Decidable (Arrives bytes x) :=
  inferInstanceAs (Decidable (_ ∧ ((_ ∧ _) ∨ _)))

section Tokens

def fieldTokens : List Argument → List (List UInt8)
  | []      => []
  | [x]     => [utf8 x.key, [58], x.value, utf8 "\x7d\x7d\n"]
  | x :: xs => utf8 x.key :: [58] :: x.value :: [44] :: fieldTokens xs

def argsTokens (xs : List Argument) : List (List UInt8) :=
  if xs = [] then [utf8 ":\x7b\x7d\x7d\n"] else utf8 ":\x7b" :: fieldTokens xs

-- The parts of a request between its quotes, behind the opening brace.
def tokens (c : Command) : List (List UInt8) :=
  utf8 "cmd" :: [58] :: utf8 (name c) :: [44] :: utf8 "args" :: argsTokens (arguments c)

theorem sendIpc_request (c : Command) : sendIpc (request c) = 123 :: quoted 34 (tokens c) := by
  cases c
  all_goals
    simp only [sendIpc, request, List.append_assoc]
    rfl

theorem fieldTokens_cons (x : Argument) (xs : List Argument) :
    ∃ w ts, fieldTokens (x :: xs) = utf8 x.key :: [58] :: x.value :: w :: ts := by
  cases xs <;> exact ⟨_, _, rfl⟩

-- No key is a separator.
theorem lookup_fieldTokens {key : List UInt8} {xs : List Argument} (hk : key ≠ [58] ∧ key ≠ [44]) :
    (lookup 58 key (fieldTokens xs)).map (·.1) =
      (xs.find? (utf8 ·.key = key)).map (·.value) := by
  induction xs
  case nil => rfl
  case cons x xs hi =>
    rw [List.find?_cons]
    by_cases hkey : utf8 x.key = key
    case pos =>
      obtain ⟨w, ts, ht⟩ := fieldTokens_cons x xs
      rw [decide_eq_true hkey, ht, lookup, if_pos ⟨hkey, rfl⟩]
      rfl
    case neg =>
      rw [decide_eq_false hkey]
      cases xs
      case nil =>
        rw [fieldTokens, map_lookup_cons fun h => hkey h.left]
        rfl
      case cons y ys =>
        have hv : ¬(x.value = key ∧ ([44] :: fieldTokens (y :: ys)).head? = some [58]) := by simp
        rw [fieldTokens, map_lookup_cons fun h => hkey h.left,
          map_lookup_cons fun h => hk.left h.left.symm, map_lookup_cons hv,
          map_lookup_cons fun h => hk.right h.left.symm, hi]
        exact List.cons_ne_nil _ _

-- The keys of the arguments, and those that the daemon looks for.
def keys : List String :=
  ["seed_path", "file_path", "save_path", "new_seed", "new_file", "old_seed", "old_file", "task_id"]

theorem lookup_cmd (c : Command) :
    (lookup 58 (utf8 "cmd") (tokens c)).map (·.1) = some (utf8 (name c)) := by
  rw [tokens, lookup, if_pos ⟨rfl, rfl⟩]
  rfl

theorem lookup_tokens (c : Command) (hk : key ∈ keys) :
    (lookup 58 (utf8 key) (tokens c)).map (·.1) =
      ((arguments c).find? (utf8 ·.key = utf8 key)).map (·.value) := by
  have hs : ∀ key ∈ keys, utf8 key ≠ [58] ∧ utf8 key ≠ [44] ∧ utf8 key ≠ utf8 "cmd" ∧
      utf8 key ≠ utf8 "args" ∧ utf8 key ≠ utf8 ":\x7b" := by decide
  obtain ⟨h₁, h₂, h₃, h₄, h₅⟩ := hs key hk
  rw [tokens, map_lookup_cons fun h => h₃ h.left.symm, map_lookup_cons fun h => h₁ h.left.symm,
    map_lookup_cons (by simp), map_lookup_cons fun h => h₂ h.left.symm,
    map_lookup_cons fun h => h₄ h.left.symm, argsTokens]
  split
  case isTrue h =>
    rw [h]
    rfl
  case isFalse =>
    rw [map_lookup_cons fun h => h₅ h.left.symm, lookup_fieldTokens ⟨h₁, h₂⟩]

end Tokens

section Extract

variable {r : List UInt8} {c : Command} {key : String} {v : List UInt8}

theorem pattern_eq : utf8 "\"" ++ utf8 key ++ utf8 "\":\"" = keyPattern 34 58 (utf8 key) :=
  rfl

theorem not_mem_extract : 34 ∉ extract r key := by
  rw [extract]
  cases h : between _ 34 r
  case none   => exact List.not_mem_nil
  case some x =>
    obtain ⟨v, e⟩ := x
    obtain ⟨_, _, _, _, hv, _⟩ := between_eq_some_iff.mp h
    exact hv

theorem not_mem_tokens (h : ∀ x ∈ arguments c, 34 ∉ x.value) : ∀ t ∈ tokens c, 34 ∉ t := by
  cases c
  all_goals
    simp only [arguments, List.forall_mem_cons] at h
    simp only [tokens, argsTokens, arguments, fieldTokens, name, List.forall_mem_cons]
    simp [h]
    decide

theorem between_request (h : ∀ x ∈ arguments c, 34 ∉ x.value) (hk : 34 ∉ utf8 key) :
    between (keyPattern 34 58 (utf8 key)) 34 (sendIpc (request c)) =
      (lookup 58 (utf8 key) (tokens c)).map fun x => (x.1, x.2 + 1) := by
  have hn : ¬keyPattern 34 58 (utf8 key) <+: 123 :: quoted 34 (tokens c) := by
    rw [keyPattern, List.cons_prefix_cons]
    exact fun h => absurd h.left (by decide)
  rw [sendIpc_request, between_cons hn, between_quoted hk (by decide) (not_mem_tokens h)]

-- What the daemon finds in the first bytes of a request.
theorem extract_take (h : ∀ x ∈ arguments c, 34 ∉ x.value) (hk : 34 ∉ utf8 key)
    (hl : (lookup 58 (utf8 key) (tokens c)).map (·.1) = some v) :
    extract ((sendIpc (request c)).take n) key =
      if Contains ((sendIpc (request c)).take n) key v then v else [] := by
  obtain ⟨⟨w, e⟩, hw, rfl⟩ := Option.map_eq_some_iff.mp hl
  have hb := between_request h hk
  rw [hw, Option.map_some] at hb
  have hc : Contains ((sendIpc (request c)).take n) key w ↔ e + 1 ≤ n := infix_take_iff hb
  rw [extract, pattern_eq, between_take keyPattern_ne_nil, hb, Option.filter_some]
  by_cases hn : e + 1 ≤ n
  case pos => rw [if_pos (decide_eq_true hn), if_pos (hc.mpr hn)]; rfl
  case neg => rw [if_neg (by simpa using hn), if_neg fun h => hn (hc.mp h)]; rfl

theorem extract_take_of_none (h : ∀ x ∈ arguments c, 34 ∉ x.value) (hk : 34 ∉ utf8 key)
    (hl : (lookup 58 (utf8 key) (tokens c)).map (·.1) = none) :
    extract ((sendIpc (request c)).take n) key = [] := by
  have hb := between_request h hk
  rw [Option.map_eq_none_iff.mp hl] at hb
  rw [extract, pattern_eq, between_take keyPattern_ne_nil, hb]
  rfl

end Extract

section Handle

variable {r : List UInt8} {c : Command}

-- What the daemon takes for an argument.
def taken (r : List UInt8) (x : Argument) : Option (List UInt8) :=
  if extract r x.key = [] then x.fallback else some (extract r x.key)

theorem name_of_handle (h : handle r = .ok c) : extract r "cmd" = utf8 (name c) := by
  simp only [handle] at h
  split_ifs at h
  all_goals
    obtain rfl := Except.ok.inj h
    assumption

theorem taken_some : taken r ⟨key, v, some d⟩ = some v ↔
    (if extract r key = [] then d else extract r key) = v := by
  rw [taken]
  split <;> exact Option.some_inj

theorem taken_some_nil : taken r ⟨key, v, some []⟩ = some v ↔ extract r key = v := by
  rw [taken_some]
  split
  case isTrue h => rw [h]
  case isFalse  => rfl

theorem taken_none : taken r ⟨key, v, none⟩ = some v ↔ extract r key ≠ [] ∧ extract r key = v := by
  rw [taken]
  split
  case isTrue h  => exact iff_of_false (by simp) fun hn => hn.left h
  case isFalse h => rw [Option.some_inj, and_iff_right h]

-- The daemon routes a command if it takes its arguments.
theorem handle_iff (hn : extract r "cmd" = utf8 (name c)) :
    handle r = .ok c ↔ (∀ x ∈ arguments c, taken r x = some x.value) ∧
      ((∃ taskId, c = .status taskId) → extract r "new_seed" = []) := by
  simp only [handle, hn]
  cases c
  case seed a b =>
    rw [name, if_pos rfl]
    simp [arguments, taken_some_nil]
  case add a b =>
    rw [name, if_neg (by decide), if_pos rfl]
    by_cases hs : extract r "seed_path" = []
    case pos => simp [arguments, taken_none, hs]
    case neg => simp [arguments, taken_none, taken_some, hs]
  case list =>
    rw [name, if_neg (by decide), if_neg (by decide), if_pos rfl]
    simp [arguments]
  case remove id =>
    rw [name, if_neg (by decide), if_neg (by decide), if_neg (by decide), if_pos rfl]
    simp [arguments, taken_some_nil]
  case update a b c d =>
    rw [name, if_neg (by decide), if_neg (by decide), if_neg (by decide), if_neg (by decide),
      if_pos rfl]
    by_cases hs : extract r "new_seed" = []
    case pos =>
      by_cases ht : extract r "task_id" = [] <;> simp [arguments, taken_none, hs, ht]
    case neg => simp [arguments, taken_none, taken_some_nil, hs]
  case status id =>
    rw [name, if_neg (by decide), if_neg (by decide), if_neg (by decide), if_neg (by decide),
      if_pos rfl]
    by_cases hs : extract r "new_seed" = []
    case pos =>
      by_cases ht : extract r "task_id" = [] <;> simp [arguments, taken_none, hs, ht]
    case neg => simp [hs]
  case peers id =>
    rw [name, if_neg (by decide), if_neg (by decide), if_neg (by decide), if_neg (by decide),
      if_neg (by decide), if_pos rfl]
    by_cases ht : extract r "task_id" = [] <;> simp [arguments, taken_none, ht]

theorem unquoted_of_taken (h : taken r x = some x.value) (hf : x.fallback.all (34 ∉ ·)) :
    34 ∉ x.value := by
  rw [taken] at h
  split at h
  case isTrue  => simpa [h] using hf
  case isFalse => exact Option.some.inj h ▸ not_mem_extract

end Handle

theorem fallback_unquoted (hx : x ∈ arguments c) : x.fallback.all (34 ∉ ·) := by
  have hd : 34 ∉ downloadedFile := by decide
  cases c
  all_goals
    revert x
    simp [arguments, hd]

theorem arrives_iff (h : extract r x.key = if Contains r x.key x.value then x.value else [])
    (hu : 34 ∉ x.value) : taken r x = some x.value ↔ Arrives r x := by
  rw [Arrives, and_iff_right hu, taken, h]
  by_cases hc : Contains r x.key x.value
  case neg => simp [hc]
  case pos =>
    by_cases hv : x.value = []
    case pos => simp [hv]
    case neg => simp [hc, hv]

theorem lookup_argument (hx : x ∈ arguments c) :
    34 ∉ utf8 x.key ∧ (lookup 58 (utf8 x.key) (tokens c)).map (·.1) = some x.value := by
  have hk : x.key ∈ keys ∧ ((arguments c).find? (utf8 ·.key = utf8 x.key)).map (·.value) =
      some x.value := by
    cases c
    all_goals
      simp only [arguments, List.mem_cons, List.not_mem_nil, or_false] at hx
    case status | peers | remove =>
      subst hx
      exact ⟨by simp [keys], rfl⟩
    case seed | add =>
      obtain rfl | rfl := hx
      all_goals exact ⟨by simp [keys], rfl⟩
    case update =>
      obtain rfl | rfl | rfl | rfl := hx
      all_goals exact ⟨by simp [keys], rfl⟩
  have hq : ∀ key ∈ keys, 34 ∉ utf8 key := by decide
  exact ⟨hq _ hk.left, (lookup_tokens c hk.left).trans hk.right⟩

-- The first bytes of a request are handled as the command exactly if they have its name and all its
-- arguments arrive.
theorem handle_take_iff : handle ((sendIpc (request c)).take n) = .ok c ↔
    Contains ((sendIpc (request c)).take n) "cmd" (utf8 (name c)) ∧
      ∀ x ∈ arguments c, Arrives ((sendIpc (request c)).take n) x := by
  have hc (hu : ∀ x ∈ arguments c, 34 ∉ x.value) :
      extract ((sendIpc (request c)).take n) "cmd" = utf8 (name c) ↔
        Contains ((sendIpc (request c)).take n) "cmd" (utf8 (name c)) := by
    rw [extract_take hu (by decide) (lookup_cmd c)]
    split
    case isTrue h => exact iff_of_true rfl h
    case isFalse h =>
      refine iff_of_false ?_ h
      cases c <;> exact (List.cons_ne_nil _ _).symm
  have hx (hu : ∀ x ∈ arguments c, 34 ∉ x.value) {x : Argument} (hx : x ∈ arguments c) :
      taken ((sendIpc (request c)).take n) x = some x.value ↔
        Arrives ((sendIpc (request c)).take n) x := by
    obtain ⟨hq, hl⟩ := lookup_argument hx
    exact arrives_iff (extract_take hu hq hl) (hu x hx)
  constructor
  · intro h
    have hn := name_of_handle h
    have ht := ((handle_iff hn).mp h).left
    have hu : ∀ x ∈ arguments c, 34 ∉ x.value :=
      fun x hx => unquoted_of_taken (ht x hx) (fallback_unquoted hx)
    exact ⟨(hc hu).mp hn, fun x hm => (hx hu hm).mp (ht x hm)⟩
  · rintro ⟨hn, ha⟩
    have hu : ∀ x ∈ arguments c, 34 ∉ x.value := fun x hx => (ha x hx).left
    refine (handle_iff ((hc hu).mpr hn)).mpr ⟨fun x hm => (hx hu hm).mpr (ha x hm), ?_⟩
    rintro ⟨id, rfl⟩
    exact extract_take_of_none hu (by decide) (lookup_tokens _ (by decide))

-- The daemon does what the client was asked for exactly if the first read has the name of the command,
-- no argument has a quote, and each argument is in the first read or is what the daemon takes for a
-- missing one.
theorem command_arrives_iff {argv rest : List (List UInt8)} (hc : tbt argv = some c)
    (hr : sendIpc (request c) = first ++ rest.flatten) :
    handleClient (first :: rest) = (tbt argv).map .ok ↔
      Contains first "cmd" (utf8 (name c)) ∧ ∀ x ∈ arguments c, Arrives first x := by
  have hf : first = (sendIpc (request c)).take first.length := by
    rw [hr, List.take_left]
  rw [hc, Option.map_some, handleClient]
  split
  case isFalse =>
    rw [Option.some_inj, hf]
    exact handle_take_iff
  case isTrue he =>
    refine iff_of_false (by simp) fun h => ?_
    cases List.infix_nil.mp (he ▸ h.left)

-- The path has a key of the request in it, and the request comes in two reads.
theorem two_reads_arrive :
    handleClient [(sendIpc (request (.add (utf8 "/save_path") downloadedFile))).take 60,
      (sendIpc (request (.add (utf8 "/save_path") downloadedFile))).drop 60] =
        some (.ok (.add (utf8 "/save_path") downloadedFile)) := by
  have hc : tbt [utf8 "add", utf8 "/save_path"] = some (.add (utf8 "/save_path") downloadedFile) := by
    decide
  have hr : sendIpc (request (.add (utf8 "/save_path") downloadedFile)) =
      (sendIpc (request (.add (utf8 "/save_path") downloadedFile))).take 60 ++
        [(sendIpc (request (.add (utf8 "/save_path") downloadedFile))).drop 60].flatten := by
    decide +kernel
  exact ((command_arrives_iff hc hr).mpr (by decide +kernel)).trans (by rw [hc]; rfl)

-- A quote ends an argument early, and it may give the next argument another value.
theorem quote_changes_command :
    tbt [utf8 "seed", utf8 "a\",\"file_path\":\"b", utf8 "c"] =
      some (.seed (utf8 "a\",\"file_path\":\"b") (utf8 "c")) ∧
    handleClient [sendIpc (request (.seed (utf8 "a\",\"file_path\":\"b") (utf8 "c")))] =
      some (.ok (.seed (utf8 "a") (utf8 "b"))) := by
  decide +kernel

end ThinBT.IpcServer
