/-!
# The help text
-/

namespace LinkTuner.CommandLine

/-- What is printed when help is asked for. -/
def usage : String := "\n".intercalate
  ["Adaptive controller of spreading factors and transmission powers",
    "",
    "Usage: adrd [OPTIONS] [COMMAND]",
    "",
    "Commands:",
    "  run     Start the controller",
    "  config  Print the effective configuration as TOML",
    "  probe   Send test observations to a running controller",
    "  help    Print this message",
    "",
    "Options:",
    "  -c, --config <CONFIG>            TOML configuration file",
    "  -l, --listen <LISTEN>            Listen address (host:port)",
    "      --arms <ARMS>                Expected number of arms",
    "      --strategy <STRATEGY>        Learning strategy: exp3 or epsilon-greedy",
    "      --gamma <GAMMA>              Exploration rate of exp3",
    "      --epsilon <EPSILON>          Exploration rate of epsilon-greedy",
    "      --alpha <ALPHA>              Weight on the delivery ratio",
    "      --beta <BETA>                Weight on normalized energy",
    "      --timeout-ms <TIMEOUT_MS>    Timeout of a request in milliseconds",
    "      --max-devices <MAX_DEVICES>  Most devices at one time",
    "      --seed <SEED>                Seed of the random draws",
    "      --log-level <LOG_LEVEL>      Log filter",
    "  -h, --help                       Print help",
    "",
    "Options of probe:",
    "      --addr <ADDR>                Controller address",
    "      --device <DEVICE>            Device id to report as",
    "      --rounds <ROUNDS>            Number of rounds",
    "      --wait-ms <WAIT_MS>          Reply deadline per round in milliseconds",
    ""]

end LinkTuner.CommandLine
