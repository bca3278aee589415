import ThreeVa.Firewall.Theorems
import ThreeVa.HttpServer.Theorems
import ThreeVa.Permissions.Theorems
import ThreeVa.Pm.Theorems
import ThreeVa.Bins.Theorems
import ThreeVa.Bundler.Theorems
import ThreeVa.Locks.Theorems
import ThreeVa.Provenance.ChainTheorems
import ThreeVa.Provenance.LogTheorems
import ThreeVa.Provenance.Theorems
import ThreeVa.Settings.Theorems
import ThreeVa.Store.Theorems
import ThreeVa.Workspace.Theorems
import ThreeVa.Cli.Theorems
import ThreeVa.Core.Timers
import ThreeVa.Js.Theorems
import ThreeVa.Js.RuntimeTheorems
import ThreeVa.Js.StreamTheorems
import ThreeVa.Crypto.Lamport
